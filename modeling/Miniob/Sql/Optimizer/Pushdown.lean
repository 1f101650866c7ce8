import Miniob.Sql.Optimizer.Conditions

/-!
# Handing conditions to a scan

`PredicatePushdownRewriter` takes comparisons out of the condition of a predicate operator and hands
them to the scan below. It goes down through the conjunctions whose parts have to hold all, and
leaves the others as they are.

* `IsCondition`: conjunctions of both types, nested to any depth, over comparisons between the
  columns of a table and constants.
* `Split`: conditions are split into those that are kept and comparisons that are handed over.
  `split_getExprsCanPushdown` is the induction over the expression.
* `pushdown_preserves_rows`: the scan and the condition that is left accept the rows that the
  condition has accepted, and no comparison is lost or made twice.
-/

namespace Miniob.Sql


/-! ## Conditions on a table -/

/-- A column of the table, or a constant. -/
inductive Operand (table : TableSchema) : Expression → Prop
  | field {field : Field} (h : table.HasField field) : Operand table (.field field)
  | value (cell : TupleCell) : Operand table (.value cell)

/-- A condition on the rows of the table. -/
inductive IsCondition (table : TableSchema) : Expression → Prop
  | comparison (comp : CompOp) {left right : Expression} (hleft : Operand table left)
      (hright : Operand table right) : IsCondition table (.comparison comp left right)
  | conjunction (type : ConjunctionType) {children : List Expression}
      (h : ∀ c ∈ children, IsCondition table c) : IsCondition table (.conjunction type children)

mutual

/-- The comparisons of an expression. -/
def Expression.comparisons : Expression → List Expression
  | .field _ => []
  | .value _ => []
  | .cast _ child => child.comparisons
  | .comparison comp left right => [.comparison comp left right]
  | .conjunction _ children => comparisonsAll children

/-- The comparisons of some expressions. -/
def comparisonsAll : List Expression → List Expression
  | [] => []
  | e :: es => e.comparisons ++ comparisonsAll es

end

theorem comparisonsAll_append (es es' : List Expression) :
    comparisonsAll (es ++ es') = comparisonsAll es ++ comparisonsAll es' := by
  induction es with
  | nil => rfl
  | cons e es ih => rw [List.cons_append, comparisonsAll, comparisonsAll, ih, List.append_assoc]

section values

variable {table : TableSchema} {e : Expression} {record : Record}

theorem Operand.evaluable (h : Operand table e) : e.Evaluable (.row table record) := by
  cases h with
  | field hfield => exact ⟨_, if_pos hfield⟩
  | value cell => exact Expression.evaluable_value cell

/-- The loop over the children of a conjunction ends with a value when all of them have one. -/
theorem evaluable_conjunction {tuple : Tuple} (type : ConjunctionType) {children : List Expression}
    (h : ∀ c ∈ children, c.Evaluable tuple) :
    (Expression.conjunction type children).Evaluable tuple := by
  have hloop : ∀ {children : List Expression}, (∀ c ∈ children, c.Evaluable tuple) →
      ∃ cell, getChildren tuple type children = .ok cell := by
    intro children
    induction children with
    | nil => exact fun _ => ⟨_, rfl⟩
    | cons c children ih =>
      intro h
      obtain ⟨cell, hcell⟩ := h c List.mem_cons_self
      obtain ⟨rest, hrest⟩ := ih fun c' hc' => h c' (List.mem_cons_of_mem _ hc')
      rw [getChildren, hcell]
      simp only [bind, Except.bind]
      split
      · exact ⟨_, rfl⟩
      · exact ⟨rest, hrest⟩
  cases children with
  | nil => exact ⟨_, rfl⟩
  | cons c children => exact hloop h

/-- A condition has a value on every row of the table. -/
theorem IsCondition.evaluable (h : IsCondition table e) : e.Evaluable (.row table record) := by
  induction h with
  | comparison comp hleft hright =>
    exact Expression.evaluable_comparison hleft.evaluable hright.evaluable
  | conjunction type _ ih => exact evaluable_conjunction type ih

end values

/-! ## Splitting -/

/-- Conditions that have to hold all are split into conditions that are kept and comparisons that
are handed over. -/
structure Split (table : TableSchema) (es kept pushed : List Expression) : Prop where
  keeps : ∀ e ∈ kept, IsCondition table e
  pushes : ∀ e ∈ pushed, IsCondition table e
  truth : ∀ record, es.all (fun e => e.truth (.row table record)) =
    (pushed.all (fun e => e.truth (.row table record)) &&
      kept.all fun e => e.truth (.row table record))
  comparisons : (pushed ++ comparisonsAll kept).Perm (comparisonsAll es)

namespace Split

variable {table : TableSchema} {e : Expression} {es es' kept kept' pushed pushed' : List Expression}

theorem nil : Split table [] [] [] := ⟨by simp, by simp, fun _ => rfl, .refl _⟩

theorem append (h : Split table es kept pushed) (h' : Split table es' kept' pushed') :
    Split table (es ++ es') (kept ++ kept') (pushed ++ pushed') where
  keeps e he := (List.mem_append.mp he).elim (h.keeps e) (h'.keeps e)
  pushes e he := (List.mem_append.mp he).elim (h.pushes e) (h'.pushes e)
  truth record := by
    rw [List.all_append, List.all_append, List.all_append, h.truth, h'.truth, Bool.and_assoc,
      Bool.and_assoc, Bool.and_left_comm (kept.all _)]
  comparisons := by
    rw [comparisonsAll_append, comparisonsAll_append, List.append_assoc]
    have hswap : (pushed' ++ (comparisonsAll kept ++ comparisonsAll kept')).Perm
        (comparisonsAll kept ++ (pushed' ++ comparisonsAll kept')) := by
      rw [← List.append_assoc, ← List.append_assoc]
      exact List.perm_append_comm.append_right _
    refine (hswap.append_left pushed).trans ?_
    rw [← List.append_assoc]
    exact h.comparisons.append h'.comparisons

/-- A condition that is kept. -/
theorem keep (h : IsCondition table e) : Split table [e] [e] [] :=
  ⟨by simpa using h, by simp, fun _ => rfl, .refl _⟩

/-- A comparison that is handed over. -/
theorem push {comp : CompOp} {left right : Expression}
    (h : IsCondition table (.comparison comp left right)) :
    Split table [.comparison comp left right] [] [.comparison comp left right] :=
  ⟨by simp, by simpa using h, fun _ => by simp, .refl _⟩

/-- What is kept of the children of a conjunction stays in it. -/
theorem conjunction (h : Split table es kept pushed) (hes : ∀ c ∈ es, IsCondition table c) :
    Split table [.conjunction .and es] [.conjunction .and kept] pushed where
  keeps := by simpa using IsCondition.conjunction .and h.keeps
  pushes := h.pushes
  truth record := by
    rw [List.all_cons, List.all_nil, Bool.and_true, List.all_cons, List.all_nil, Bool.and_true,
      Expression.truth_and fun c hc => (hes c hc).evaluable,
      Expression.truth_and fun c hc => (h.keeps c hc).evaluable, h.truth]
  comparisons := by simpa [comparisonsAll, Expression.comparisons] using h.comparisons

end Split

mutual

/-- What `get_exprs_can_pushdown` makes of a condition. -/
theorem split_getExprsCanPushdown {table : TableSchema} : ∀ {e : Expression}, IsCondition table e →
    Split table [e] (getExprsCanPushdown e).1.toList (getExprsCanPushdown e).2
  | .conjunction .and children, h => by
    have hchildren : ∀ c ∈ children, IsCondition table c := by
      cases h with
      | conjunction _ h => exact h
    rw [getExprsCanPushdown]
    exact (split_getChildrenCanPushdown hchildren).conjunction hchildren
  | .conjunction .or children, h => by
    rw [getExprsCanPushdown]
    · exact .keep h
    · simp
    · simp
  | .comparison comp left right, h => by
    rw [getExprsCanPushdown]
    split
    · exact .push h
    · exact .keep h
  | .field _, h => by cases h
  | .value _, h => by cases h
  | .cast _ _, h => by cases h

/-- What the loop makes of the children of a conjunction. -/
theorem split_getChildrenCanPushdown {table : TableSchema} : ∀ {es : List Expression},
    (∀ e ∈ es, IsCondition table e) →
      Split table es (getChildrenCanPushdown es).1 (getChildrenCanPushdown es).2
  | [], _ => .nil
  | e :: es, h => by
    have hhead := split_getExprsCanPushdown (h e List.mem_cons_self)
    have htail := split_getChildrenCanPushdown fun e' he' => h e' (List.mem_cons_of_mem _ he')
    exact hhead.append htail

end

/-! ## The rule -/

/-- The scan accepts the row. -/
theorem filterScan_conditions {table : TableSchema} {predicates : List Expression}
    (h : ∀ e ∈ predicates, IsCondition table e) (record : Record) :
    filterScan (.row table record) predicates =
      .ok (predicates.all fun e => e.truth (.row table record)) :=
  filterScan_eq fun e he => (h e he).evaluable

/-- **One `PredicatePushdownRewriter::rewrite` keeps the rows**: a row is accepted by the condition
if and only if the scan accepts it and the condition that is left does. Each comparison is in the
scan or in the condition that is left, as often as it was in the condition. -/
theorem pushdown_preserves_rows (table : TableSchema) (expressions : List Expression)
    (children : List LogicalOperator) {e : Expression} (h : IsCondition table e) :
    ∃ predicates e', (predicatePushdown
        (.mk .predicate [e] [.mk (.tableGet table []) expressions children])).1 =
          .mk .predicate [e'] [.mk (.tableGet table predicates) expressions children] ∧
      (∀ record, ∃ scanned left, filterScan (.row table record) predicates = .ok scanned ∧
        e'.holds (.row table record) = .ok left ∧
        e.holds (.row table record) = .ok (scanned && left)) ∧
      (predicates ++ e'.comparisons).Perm e.comparisons := by
  have hsplit := split_getExprsCanPushdown h
  refine ⟨(getExprsCanPushdown e).2, e.remaining, ?_, fun record => ?_, ?_⟩
  · rw [predicatePushdown]
    split
    · rename_i hnil
      rw [hnil, Expression.remaining]
    · rfl
  · have hscan := filterScan_conditions hsplit.pushes record
    have htruth := hsplit.truth record
    have hself : e.holds (.row table record) = _ := holds_eq h.evaluable
    rw [List.all_cons, List.all_nil, Bool.and_true] at htruth
    refine ⟨_, e.remaining.truth (.row table record), hscan, ?_, ?_⟩
    · unfold Expression.remaining
      cases hkept : (getExprsCanPushdown e).1 with
      | none => rfl
      | some e' =>
        have hcondition := hsplit.keeps e' (by simp [hkept])
        exact holds_eq hcondition.evaluable
    · rw [hself, htruth]
      unfold Expression.remaining
      cases hkept : (getExprsCanPushdown e).1 <;> simp [TupleCell.getBoolean]
  · have hcomparisons := hsplit.comparisons
    rw [comparisonsAll, comparisonsAll, List.append_nil] at hcomparisons
    unfold Expression.remaining
    cases hkept : (getExprsCanPushdown e).1 with
    | none =>
      rw [hkept] at hcomparisons
      exact hcomparisons
    | some e' =>
      rw [hkept] at hcomparisons
      simpa [comparisonsAll] using hcomparisons

/-- `id = n` -/
def idEquals (n : Int) : Expression :=
  .comparison .equalTo (.field ⟨"t", "id"⟩) (.value (.ints n))

/-- `(id = 1 OR id = 2) AND (id = 3)`, with the second part a conjunction of its own. -/
def nestedCondition : Expression :=
  .conjunction .and
    [.conjunction .or [idEquals 1, idEquals 2], .conjunction .and [idEquals 3]]

theorem condition_idEquals (n : Int) : IsCondition ⟨"t", ["id"]⟩ (idEquals n) :=
  .comparison _ (.field ⟨rfl, List.mem_cons_self⟩) (.value _)

theorem condition_nestedCondition : IsCondition ⟨"t", ["id"]⟩ nestedCondition := by
  refine .conjunction .and fun c hc => ?_
  simp only [List.mem_cons, List.not_mem_nil, or_false] at hc
  rcases hc with rfl | rfl
  · refine .conjunction .or fun c hc => ?_
    simp only [List.mem_cons, List.not_mem_nil, or_false] at hc
    rcases hc with rfl | rfl
    · exact condition_idEquals 1
    · exact condition_idEquals 2
  · refine .conjunction .and fun c hc => ?_
    obtain rfl := List.mem_singleton.mp hc
    exact condition_idEquals 3

theorem nested_pushdown : ∃ predicates e', (predicatePushdown
      (.mk .predicate [nestedCondition] [.mk (.tableGet ⟨"t", ["id"]⟩ []) [] []])).1 =
        .mk .predicate [e'] [.mk (.tableGet ⟨"t", ["id"]⟩ predicates) [] []] ∧
    (∀ record, ∃ scanned left,
      filterScan (.row ⟨"t", ["id"]⟩ record) predicates = .ok scanned ∧
      e'.holds (.row ⟨"t", ["id"]⟩ record) = .ok left ∧
      nestedCondition.holds (.row ⟨"t", ["id"]⟩ record) = .ok (scanned && left)) ∧
    (predicates ++ e'.comparisons).Perm nestedCondition.comparisons :=
  pushdown_preserves_rows ⟨"t", ["id"]⟩ [] [] condition_nestedCondition

end Miniob.Sql
