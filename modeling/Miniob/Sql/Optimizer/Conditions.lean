import Miniob.Sql.Optimizer.Rewriter

/-!
# What the rules make of a condition

The condition of a statement is a conjunction of comparisons that have to hold all. In the first
pass comparisons of two constants become constants and leave the conjunction. If one of them is
false, `ConjunctionSimplificationRule` puts the first child of the conjunction in its place, which
need not be the false one.

* `Settled`: the conditions that later passes meet. The rules keep what they say
  (`Settled.rewriteExpression`), and so does handing a part of them to a scan (`Settled.pushdown`).
* `effective`: the comparisons that are left after the first pass.
* `settled_of_simplified`: the condition after the first pass is settled and says what they say.
-/

namespace Miniob.Sql


/-! ## Comparisons -/

/-- The value of a comparison of two constants. -/
def FilterUnit.constant (unit : FilterUnit) : Option Bool :=
  match unit.left, unit.right with
  | .value left, .value right => some (compareTupleCell unit.comp left.toCell right.toCell)
  | _, _ => none

/-- The comparison holds of the row. -/
def FilterUnit.holds (unit : FilterUnit) (tuple : Tuple) : Bool := unit.toExpression.truth tuple

/-- The comparison without a rule that could change it. -/
def FilterUnit.simplified (unit : FilterUnit) : Expression :=
  match unit.constant with
  | some value => .value (.booleans value)
  | none => unit.toExpression

section units

variable {unit : FilterUnit} {units : List FilterUnit} {tuple : Tuple}

theorem simplify_toExpression (obj : FilterObj) :
    simplify obj.toExpression = (obj.toExpression, false) := by
  cases obj <;> rfl

theorem rewriteExpression_toExpression (obj : FilterObj) :
    rewriteExpression obj.toExpression = (obj.toExpression, false) := by
  rw [rewriteExpression, if_neg (by simp [simplify_toExpression])]
  cases obj <;> rfl

theorem FilterUnit.tryGetValue_eq (unit : FilterUnit) :
    Expression.tryGetValue unit.comp unit.left.toExpression unit.right.toExpression =
      unit.constant.map .booleans := by
  obtain ⟨comp, left, right⟩ := unit
  cases left <;> cases right <;> rfl

/-- A comparison of two constants becomes a constant. -/
theorem FilterUnit.simplify_eq (unit : FilterUnit) :
    simplify unit.toExpression = (unit.simplified, unit.constant.isSome) := by
  have htry := unit.tryGetValue_eq
  unfold simplify FilterUnit.toExpression comparisonSimplification FilterUnit.simplified
  cases hconst : unit.constant with
  | none =>
    rw [hconst] at htry
    simp only [htry, Option.map_none]
    rfl
  | some value =>
    rw [hconst] at htry
    simp only [htry, Option.map_some]
    rfl

theorem FilterUnit.rewriteExpression_eq (unit : FilterUnit) :
    rewriteExpression unit.toExpression = (unit.simplified, unit.constant.isSome) := by
  have hsimplify := unit.simplify_eq
  cases hconst : unit.constant with
  | none =>
    have hself : unit.simplified = unit.toExpression := by
      rw [simplified, hconst]
    rw [hconst, hself] at hsimplify
    rw [rewriteExpression_comparison hsimplify, rewriteExpression_toExpression,
      rewriteExpression_toExpression, hself]
    rfl
  | some value =>
    rw [rewriteExpression_of_changed (by simp [hsimplify, hconst]), hsimplify, hconst]

/-- A comparison of two constants has one value on all rows. -/
theorem FilterUnit.getValue_of_constant {value : Bool} (h : unit.constant = some value) :
    unit.toExpression.getValue tuple = .ok (.booleans value) := by
  apply Expression.getValue_of_tryGetValue
  rw [tryGetValue_eq, h, Option.map_some]

theorem FilterUnit.holds_of_constant {value : Bool} (h : unit.constant = some value) :
    unit.holds tuple = value := by
  rw [holds, Expression.truth, getValue_of_constant h]
  rfl

/-- A comparison has a value on a row with its columns. -/
theorem FilterUnit.Known.evaluable {contents : Contents} {tables : List TableSchema}
    (h : unit.Known tables) (htuple : tuple ∈ joinedTuples contents tables) :
    unit.toExpression.Evaluable tuple := by
  have hside : ∀ obj : FilterObj, obj = unit.left ∨ obj = unit.right →
      obj.toExpression.Evaluable tuple := by
    intro obj hobj
    cases obj with
    | value v => exact Expression.evaluable_value _
    | attr field => exact has_joinedTuples (h field (hobj.imp Eq.symm Eq.symm)) htuple
  exact Expression.evaluable_comparison (hside _ (Or.inl rfl)) (hside _ (Or.inr rfl))

end units

/-! ## Conditions -/

/-- The conditions that are left when no comparison of two constants is: a constant, a comparison
with a column, or several of them. They have a value on the rows. -/
inductive Settled (tuples : List Tuple) : Expression → Prop
  | constant (value : Bool) : Settled tuples (.value (.booleans value))
  | single {unit : FilterUnit} (hopen : unit.constant = none)
      (heval : ∀ tuple ∈ tuples, unit.toExpression.Evaluable tuple) :
      Settled tuples unit.toExpression
  | all {units : List FilterUnit} (hopen : ∀ unit ∈ units, unit.constant = none)
      (heval : ∀ unit ∈ units, ∀ tuple ∈ tuples, unit.toExpression.Evaluable tuple) :
      Settled tuples (.conjunction .and (units.map FilterUnit.toExpression))

section conditions

variable {tuples : List Tuple} {units kept : List FilterUnit} {e : Expression} {tuple : Tuple}

theorem evaluable_units (heval : ∀ unit ∈ units, unit.toExpression.Evaluable tuple) :
    ∀ e ∈ units.map FilterUnit.toExpression, e.Evaluable tuple := by
  intro e he
  obtain ⟨unit, hunit, rfl⟩ := List.mem_map.mp he
  exact heval unit hunit

/-- Comparisons that have to hold all. -/
theorem truth_units (heval : ∀ unit ∈ units, unit.toExpression.Evaluable tuple) :
    (Expression.conjunction .and (units.map FilterUnit.toExpression)).truth tuple =
      units.all fun unit => unit.holds tuple := by
  rw [Expression.truth_and (evaluable_units heval), List.all_map]
  rfl

theorem Settled.mono {tuples' : List Tuple} (h : Settled tuples e)
    (hsub : ∀ tuple ∈ tuples', tuple ∈ tuples) : Settled tuples' e := by
  cases h with
  | constant value => exact .constant value
  | single hopen heval => exact .single hopen fun tuple ht => heval tuple (hsub tuple ht)
  | all hopen heval =>
    exact .all hopen fun unit hunit tuple ht => heval unit hunit tuple (hsub tuple ht)

theorem Settled.evaluable (h : Settled tuples e) (ht : tuple ∈ tuples) : e.Evaluable tuple := by
  cases h with
  | constant => exact Expression.evaluable_value _
  | single _ heval => exact heval tuple ht
  | all _ heval =>
    exact Expression.evaluable_and (evaluable_units fun unit hunit => heval unit hunit tuple ht)

/-- No child of a conjunction of comparisons is erased. -/
theorem simplifyChildren_toExpression (es : List Expression) (units : List FilterUnit) :
    simplifyChildren .and es (units.map FilterUnit.toExpression) =
      .ok (es ++ units.map FilterUnit.toExpression) := by
  induction units generalizing es with
  | nil => simp [simplifyChildren]
  | cons unit units ih =>
    rw [List.map_cons, simplifyChildren]
    simp only [FilterUnit.toExpression, tryToGetBoolConstant]
    rw [← FilterUnit.toExpression, ih, List.append_assoc, List.singleton_append]

/-- A conjunction of one comparison becomes the comparison, and others stay. -/
theorem simplify_units (units : List FilterUnit) :
    simplify (.conjunction .and (units.map FilterUnit.toExpression)) =
      match units with
      | [unit] => (unit.toExpression, true)
      | units => (.conjunction .and (units.map FilterUnit.toExpression), false) := by
  simp only [simplify, comparisonSimplification, conjunctionSimplification,
    simplifyChildren_toExpression, List.nil_append, Bool.false_or]
  rcases units with _ | ⟨unit, _ | ⟨unit', units⟩⟩
  · rfl
  · rfl
  · rfl

/-- The comparisons of a conjunction are rewritten, if it has more than one. -/
theorem rewriteExpression_units (unit unit' : FilterUnit) (units : List FilterUnit) :
    (rewriteExpression (.conjunction .and
      ((unit :: unit' :: units).map FilterUnit.toExpression))).1 =
        .conjunction .and ((unit :: unit' :: units).map FilterUnit.simplified) := by
  rw [rewriteExpression_conjunction (simplify_units _), List.map_map, List.map_map]
  refine congrArg (Expression.conjunction .and) (List.map_congr_left fun u _ => ?_)
  rw [Function.comp_apply, Function.comp_apply, FilterUnit.rewriteExpression_eq]

theorem simplified_of_open {unit : FilterUnit} (h : unit.constant = none) :
    unit.simplified = unit.toExpression := by
  rw [FilterUnit.simplified, h]

/-- A settled condition stays what it says. -/
theorem Settled.rewriteExpression (h : Settled tuples e) :
    Settled tuples (rewriteExpression e).1 ∧
      ∀ tuple ∈ tuples, (rewriteExpression e).1.truth tuple = e.truth tuple := by
  cases h with
  | constant value =>
    have hself : Sql.rewriteExpression (.value (.booleans value)) =
        (.value (.booleans value), false) :=
      rewriteExpression_toExpression (.value (.booleans value))
    rw [hself]
    exact ⟨.constant value, fun _ _ => rfl⟩
  | single hopen heval =>
    rw [FilterUnit.rewriteExpression_eq, simplified_of_open hopen]
    exact ⟨.single hopen heval, fun _ _ => rfl⟩
  | @all units hopen heval =>
    match units, hopen, heval with
    | [], hopen, heval =>
      rw [rewriteExpression_conjunction (simplify_units [])]
      exact ⟨.all hopen heval, fun _ _ => rfl⟩
    | [unit], hopen, heval =>
      rw [rewriteExpression_of_changed (by rw [simplify_units]), simplify_units]
      refine ⟨.single (hopen unit List.mem_cons_self) (heval unit List.mem_cons_self), ?_⟩
      intro tuple ht
      rw [truth_units fun unit hunit => heval unit hunit tuple ht, List.all_cons, List.all_nil,
        Bool.and_true]
      rfl
    | unit :: unit' :: units, hopen, heval =>
      have hsame : (unit :: unit' :: units).map FilterUnit.simplified =
          (unit :: unit' :: units).map FilterUnit.toExpression :=
        List.map_congr_left fun u hu => simplified_of_open (hopen u hu)
      rw [rewriteExpression_units, hsame]
      exact ⟨.all hopen heval, fun _ _ => rfl⟩

/-! ## Handing conditions to a scan -/

/-- The comparison is handed to a scan. -/
def FilterUnit.pushed (unit : FilterUnit) : Bool :=
  canPushdown unit.comp unit.left.toExpression unit.right.toExpression

theorem getChildrenCanPushdown_units (units : List FilterUnit) :
    getChildrenCanPushdown (units.map FilterUnit.toExpression) =
      ((units.filter fun unit => !unit.pushed).map FilterUnit.toExpression,
        (units.filter FilterUnit.pushed).map FilterUnit.toExpression) := by
  induction units with
  | nil => rfl
  | cons unit units ih =>
    rw [List.map_cons, getChildrenCanPushdown, ih, FilterUnit.toExpression, getExprsCanPushdown]
    by_cases hpushed : unit.pushed
    · have hcan : canPushdown unit.comp unit.left.toExpression unit.right.toExpression := hpushed
      rw [if_pos hcan, List.filter_cons_of_pos hpushed, List.filter_cons_of_neg (by simp [hpushed])]
      rfl
    · have hcan : ¬ canPushdown unit.comp unit.left.toExpression unit.right.toExpression := hpushed
      rw [if_neg hcan, List.filter_cons_of_neg hpushed, List.filter_cons_of_pos (by simp [hpushed])]
      rfl

/-- What stays of a condition. -/
def Expression.remaining (e : Expression) : Expression :=
  (getExprsCanPushdown e).1.getD (.value (.booleans true))

/-- A settled condition holds if what is handed over does and what stays. Nothing that stays can be
handed over. -/
theorem Settled.pushdown (h : Settled tuples e) :
    Settled tuples e.remaining ∧
      (∀ p ∈ (getExprsCanPushdown e).2, ∀ tuple ∈ tuples, p.Evaluable tuple) ∧
      (∀ tuple ∈ tuples, e.truth tuple =
        (((getExprsCanPushdown e).2.all fun p => p.truth tuple) && e.remaining.truth tuple)) ∧
      (getExprsCanPushdown e.remaining).2 = [] := by
  unfold Expression.remaining
  cases h with
  | constant value => exact ⟨.constant value, by simp [getExprsCanPushdown], fun _ _ => rfl, rfl⟩
  | @single unit hopen heval =>
    have hself : getExprsCanPushdown unit.toExpression =
        if unit.pushed then (none, [unit.toExpression]) else (some unit.toExpression, []) := rfl
    by_cases hpushed : unit.pushed
    · rw [hself, if_pos hpushed]
      refine ⟨.constant true, by simpa using heval, fun tuple _ => ?_, rfl⟩
      simp [TupleCell.getBoolean]
    · rw [hself, if_neg hpushed]
      refine ⟨.single hopen heval, by simp, fun tuple _ => ?_, ?_⟩
      · simp
      · rw [Option.getD_some, hself, if_neg hpushed]
  | @all units hopen heval =>
    have hself : ∀ us : List FilterUnit,
        getExprsCanPushdown (.conjunction .and (us.map FilterUnit.toExpression)) =
          (some (.conjunction .and ((us.filter fun u => !u.pushed).map FilterUnit.toExpression)),
            (us.filter FilterUnit.pushed).map FilterUnit.toExpression) := by
      intro us
      rw [getExprsCanPushdown, getChildrenCanPushdown_units]
    have hsub : ∀ b : FilterUnit → Bool, ∀ u ∈ units.filter b, u ∈ units :=
      fun b u hu => (List.mem_filter.mp hu).1
    rw [hself, Option.getD_some]
    refine ⟨.all (fun u hu => hopen u (hsub _ u hu)) (fun u hu => heval u (hsub _ u hu)),
      ?_, ?_, ?_⟩
    · intro p hp tuple ht
      exact evaluable_units (fun u hu => heval u (hsub _ u hu) tuple ht) p hp
    · intro tuple ht
      rw [truth_units fun u hu => heval u hu tuple ht,
        truth_units fun u hu => heval u (hsub _ u hu) tuple ht, List.all_map]
      clear hself hsub hopen heval
      induction units with
      | nil => rfl
      | cons u units ih =>
        rw [List.all_cons, ih]
        cases hu : u.pushed <;> simp [hu, FilterUnit.holds, Bool.and_assoc, Bool.and_left_comm]
    · rw [hself, List.filter_filter, List.filter_filter]
      simp

end conditions

/-! ## The first pass -/

/-- What is left of a condition when comparisons of constants have become constants: if one of them
is false, the first comparison that is not true on all rows, whichever that is. -/
def effective (units : List FilterUnit) : List FilterUnit :=
  if units.any fun unit => unit.constant = some false then
    (units.find? fun unit => unit.constant ≠ some true).toList
  else units

section first

variable {tuples : List Tuple} {units kept : List FilterUnit} {unit : FilterUnit}

theorem tryToGetBoolConstant_simplified (unit : FilterUnit) :
    tryToGetBoolConstant unit.simplified = unit.constant := by
  unfold FilterUnit.simplified
  cases hconst : unit.constant <;> rfl

/-- A false constant ends the loop: what is returned is the first child that is left. By induction
on the comparisons that are not looked at yet; those that are kept are not constant. -/
theorem simplifyChildren_of_false (hkept : ∀ u ∈ kept, u.constant = none)
    (hfalse : ∃ u ∈ units, u.constant = some false) :
    ∃ front, ((kept ++ units).find? fun u => u.constant ≠ some true) = some front ∧
      simplifyChildren .and (kept.map FilterUnit.simplified) (units.map FilterUnit.simplified) =
        .error front.simplified := by
  induction units generalizing kept with
  | nil =>
    obtain ⟨u, hu, -⟩ := hfalse
    cases hu
  | cons unit units ih =>
    rw [List.map_cons, simplifyChildren, tryToGetBoolConstant_simplified]
    have hlater : unit.constant ≠ some false → ∃ u ∈ units, u.constant = some false := by
      intro hne
      obtain ⟨u, hu, hconst⟩ := hfalse
      rcases List.mem_cons.mp hu with rfl | hu
      · exact absurd hconst hne
      · exact ⟨u, hu, hconst⟩
    cases hconst : unit.constant with
    | none =>
      have hkept' : ∀ u ∈ kept ++ [unit], u.constant = none := fun u hu =>
        (List.mem_append.mp hu).elim (hkept u) fun hu => List.mem_singleton.mp hu ▸ hconst
      obtain ⟨front, hfind, hloop⟩ := ih hkept' (hlater (by simp [hconst]))
      refine ⟨front, ?_, ?_⟩
      · rw [List.append_assoc, List.singleton_append] at hfind
        exact hfind
      · rw [List.map_append] at hloop
        exact hloop
    | some value =>
      cases value with
      | true =>
        obtain ⟨front, hfind, hloop⟩ := ih hkept (hlater (by simp [hconst]))
        refine ⟨front, ?_, hloop⟩
        rw [List.find?_append] at hfind ⊢
        rw [List.find?_cons_of_neg (by simp [hconst])]
        exact hfind
      | false =>
        cases kept with
        | nil => exact ⟨unit, by simp [hconst], rfl⟩
        | cons front kept =>
          have hopen := hkept front List.mem_cons_self
          exact ⟨front, by simp [hopen], rfl⟩

/-- Without a false constant the loop erases the constants. -/
theorem simplifyChildren_of_true (htrue : ∀ u ∈ units, u.constant ≠ some false)
    (es : List Expression) :
    simplifyChildren .and es (units.map FilterUnit.simplified) =
      .ok (es ++ (units.filter fun u => u.constant = none).map FilterUnit.toExpression) := by
  induction units generalizing es with
  | nil => simp [simplifyChildren]
  | cons unit units ih =>
    rw [List.map_cons, simplifyChildren, tryToGetBoolConstant_simplified]
    have hrest := fun es => ih (fun u hu => htrue u (List.mem_cons_of_mem _ hu)) es
    cases hconst : unit.constant with
    | none =>
      rw [List.filter_cons_of_pos (by simp [hconst]), List.map_cons]
      simp only [hrest, simplified_of_open hconst, List.append_assoc, List.singleton_append]
    | some value =>
      cases value with
      | true =>
        rw [List.filter_cons_of_neg (by simp [hconst])]
        exact hrest es
      | false => exact absurd hconst (htrue unit List.mem_cons_self)

/-- An expression that the rules make a comparison, or a constant, stays that. -/
theorem rewriteExpression_of_front {e : Expression} (h : simplify e = (unit.simplified, false)) :
    (rewriteExpression e).1 = unit.simplified := by
  cases hconst : unit.constant with
  | none =>
    have hself := simplified_of_open hconst
    rw [hself] at h ⊢
    rw [rewriteExpression_comparison h, rewriteExpression_toExpression,
      rewriteExpression_toExpression]
    rfl
  | some value =>
    have hself : unit.simplified = .value (.booleans value) := by
      rw [FilterUnit.simplified, hconst]
    rw [hself] at h ⊢
    rw [rewriteExpression_of_unchanged h]
    rfl

/-- A comparison is settled once it cannot be a comparison of constants. -/
theorem settled_simplified (heval : ∀ tuple ∈ tuples, unit.toExpression.Evaluable tuple) :
    Settled tuples unit.simplified ∧
      ∀ tuple, unit.simplified.truth tuple = unit.holds tuple := by
  unfold FilterUnit.simplified
  cases hconst : unit.constant with
  | none => exact ⟨.single hconst heval, fun _ => rfl⟩
  | some value =>
    refine ⟨.constant value, fun tuple => ?_⟩
    rw [FilterUnit.holds_of_constant hconst]
    rfl

/-- The comparisons that are not true on all rows anyway. -/
theorem all_open (htrue : ∀ u ∈ units, u.constant ≠ some false) (tuple : Tuple) :
    ((units.filter fun u => u.constant = none).all fun u => u.holds tuple) =
      units.all fun u => u.holds tuple := by
  induction units with
  | nil => rfl
  | cons unit units ih =>
    have hrest := ih fun u hu => htrue u (List.mem_cons_of_mem _ hu)
    rw [List.all_cons, ← hrest]
    cases hconst : unit.constant with
    | none => rw [List.filter_cons_of_pos (by simp [hconst]), List.all_cons]
    | some value =>
      rw [List.filter_cons_of_neg (by simp [hconst]), FilterUnit.holds_of_constant hconst]
      cases value with
      | true => rw [Bool.true_and]
      | false => exact absurd hconst (htrue unit List.mem_cons_self)

/-- The rules for expressions, after comparisons of constants have become constants. -/
theorem settled_of_simplified
    (heval : ∀ u ∈ units, ∀ tuple ∈ tuples, u.toExpression.Evaluable tuple) :
    Settled tuples
        (rewriteExpression (.conjunction .and (units.map FilterUnit.simplified))).1 ∧
      ∀ tuple ∈ tuples,
        (rewriteExpression (.conjunction .and (units.map FilterUnit.simplified))).1.truth tuple =
          (effective units).all fun u => u.holds tuple := by
  by_cases hfalse : ∃ u ∈ units, u.constant = some false
  · have hnil : ∀ u ∈ ([] : List FilterUnit), u.constant = none := by simp
    obtain ⟨front, hfind, hloop⟩ := simplifyChildren_of_false hnil hfalse
    rw [List.nil_append] at hfind
    rw [List.map_nil] at hloop
    have hfront : simplify (.conjunction .and (units.map FilterUnit.simplified)) =
        (front.simplified, false) := by
      simp only [simplify, comparisonSimplification, conjunctionSimplification, hloop,
        Bool.false_or]
    have heffective : effective units = [front] := by
      rw [effective, if_pos (by simpa using hfalse), hfind, Option.toList_some]
    rw [rewriteExpression_of_front hfront, heffective]
    obtain ⟨hsettled, htruth⟩ := settled_simplified (heval front (List.mem_of_find?_eq_some hfind))
    refine ⟨hsettled, fun tuple _ => ?_⟩
    rw [htruth, List.all_cons, List.all_nil, Bool.and_true]
  · have htrue : ∀ u ∈ units, u.constant ≠ some false := fun u hu hconst => hfalse ⟨u, hu, hconst⟩
    have heffective : effective units = units := by
      rw [effective, if_neg (by simpa using hfalse)]
    have hopen : ∀ u ∈ units.filter fun u => u.constant = none, u.constant = none := fun u hu =>
      of_decide_eq_true (List.mem_filter.mp hu).2
    have hsame : simplify (.conjunction .and (units.map FilterUnit.simplified)) =
        simplify (.conjunction .and
          ((units.filter fun u => u.constant = none).map FilterUnit.toExpression)) := by
      simp only [simplify, comparisonSimplification, conjunctionSimplification,
        simplifyChildren_of_true htrue, simplifyChildren_toExpression]
    have hsettled : Settled tuples (.conjunction .and
        ((units.filter fun u => u.constant = none).map FilterUnit.toExpression)) :=
      .all hopen fun u hu => heval u (List.mem_filter.mp hu).1
    obtain ⟨hsettled', htruth⟩ := hsettled.rewriteExpression
    rw [rewriteExpression_congr hsame, heffective]
    refine ⟨hsettled', fun tuple ht => ?_⟩
    rw [htruth tuple ht, truth_units fun u hu => heval u (List.mem_filter.mp hu).1 tuple ht,
      all_open htrue]

end first

end Miniob.Sql
