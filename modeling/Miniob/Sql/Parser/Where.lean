import Miniob.Sql.Stmt.SelectStmt

/-!
# Parsing a condition

The derivations of the nonterminal `where` of the grammar, with the values that their semantic
actions compute from the inside out. A list of conditions is a pointer, which is null for the empty
production, and the recursive production appends to the list of its tail.

* `WhereTree` and the trees below it: the derivations, with their tokens.
* `WhereTree.action`: the actions. A condition is an object whose unused members are not set.
* `ParsedWhole`: what the actions should yield. `parsed_whole_iff` says that they do so if and only
  if the text does not end in `AND`.

A string token is a quote, the characters of the string and the quote again.
-/

namespace Miniob.Sql.Parser

open Miniob.Common

/-! ## Derivations -/

/-- The tokens of a condition. Source: `lex_sql.l` -/
inductive Token
  | whereToken
  | and
  | dot
  | eq
  | lt
  | gt
  | le
  | ge
  | ne
  | id (name : String)
  | number (v : Int)
  | float (v : Float32)
  | sss (text : List Byte)
  deriving DecidableEq

/-- Source: `yacc_sql.y`, `rel_attr` -/
inductive RelAttrTree
  | id (name : String)
  | idDotId (relation name : String)

/-- Source: `yacc_sql.y`, `value` -/
inductive ValueTree
  | number (v : Int)
  | float (v : Float32)
  | sss (quote : Byte) (body : List Byte)

/-- Source: `yacc_sql.y`, `comp_op` -/
inductive CompOpTree
  | eq
  | lt
  | gt
  | le
  | ge
  | ne

/-- Source: `yacc_sql.y`, `condition` -/
inductive ConditionTree
  | attrValue (left : RelAttrTree) (comp : CompOpTree) (right : ValueTree)
  | valueValue (left : ValueTree) (comp : CompOpTree) (right : ValueTree)
  | attrAttr (left : RelAttrTree) (comp : CompOpTree) (right : RelAttrTree)
  | valueAttr (left : ValueTree) (comp : CompOpTree) (right : RelAttrTree)

/-- Source: `yacc_sql.y`, `condition_list` -/
inductive ConditionListTree
  | empty
  | single (condition : ConditionTree)
  | andThen (condition : ConditionTree) (rest : ConditionListTree)

/-- Source: `yacc_sql.y`, `where` -/
inductive WhereTree
  | empty
  | clause (conditions : ConditionListTree)

/-! ## Tokens -/

/-- The tokens of a name. -/
def RelAttrTree.tokens : RelAttrTree → List Token
  | id name => [.id name]
  | idDotId relation name => [.id relation, .dot, .id name]

/-- The token of a constant. -/
def ValueTree.tokens : ValueTree → List Token
  | number v => [.number v]
  | float v => [.float v]
  | sss quote body => [.sss (quote :: body ++ [quote])]

/-- The token of an operator. -/
def CompOpTree.token : CompOpTree → Token
  | eq => .eq
  | lt => .lt
  | gt => .gt
  | le => .le
  | ge => .ge
  | ne => .ne

/-- The tokens of a condition. -/
def ConditionTree.tokens : ConditionTree → List Token
  | attrValue left comp right => left.tokens ++ comp.token :: right.tokens
  | valueValue left comp right => left.tokens ++ comp.token :: right.tokens
  | attrAttr left comp right => left.tokens ++ comp.token :: right.tokens
  | valueAttr left comp right => left.tokens ++ comp.token :: right.tokens

/-- The tokens of a list of conditions. -/
def ConditionListTree.tokens : ConditionListTree → List Token
  | empty => []
  | single condition => condition.tokens
  | andThen condition rest => condition.tokens ++ .and :: rest.tokens

/-- The tokens of a clause. -/
def WhereTree.tokens : WhereTree → List Token
  | empty => []
  | clause conditions => .whereToken :: conditions.tokens

/-! ## What is written -/

/-- The name that is written. -/
def RelAttrTree.written : RelAttrTree → RelAttr
  | id name => ⟨"", name⟩
  | idDotId relation name => ⟨relation, name⟩

/-- The constant that is written, a string without its quotes. -/
def ValueTree.written : ValueTree → Value
  | number v => .ints v
  | float v => .floats v
  | sss _ body => .chars body

/-- The operator that is written. -/
def CompOpTree.written : CompOpTree → CompOp
  | eq => .equalTo
  | lt => .lessThan
  | gt => .greatThan
  | le => .lessEqual
  | ge => .greatEqual
  | ne => .notEqual

/-- The condition that is written. -/
def ConditionTree.written : ConditionTree → Condition
  | attrValue left comp right => ⟨.attr left.written, comp.written, .value right.written⟩
  | valueValue left comp right => ⟨.value left.written, comp.written, .value right.written⟩
  | attrAttr left comp right => ⟨.attr left.written, comp.written, .attr right.written⟩
  | valueAttr left comp right => ⟨.value left.written, comp.written, .attr right.written⟩

/-- The conditions in the order of writing. -/
def ConditionListTree.written : ConditionListTree → List Condition
  | empty => []
  | single condition => [condition.written]
  | andThen condition rest => condition.written :: rest.written

/-- The conditions in the order of writing. -/
def WhereTree.written : WhereTree → List Condition
  | empty => []
  | clause conditions => conditions.written

/-! ## Actions -/

/-- The characters from the one index to the other one.
Source: `string.cpp`, `substr` -/
def substr (s : List Byte) (n₁ n₂ : Int) : List Byte :=
  (s.drop n₁.toNat).take (n₂ - n₁ + 1).toNat

/-- Source: `parse_defs.h`, `struct Condition` -/
structure ParsedCondition where
  /-- `left_is_attr` -/
  leftIsAttr : Int
  /-- `left_value` -/
  leftValue : Value
  /-- `left_attr` -/
  leftAttr : RelAttr
  /-- `comp` -/
  comp : CompOp
  /-- `right_is_attr` -/
  rightIsAttr : Int
  /-- `right_attr` -/
  rightAttr : RelAttr
  /-- `right_value` -/
  rightValue : Value

/-- Source: `yacc_sql.y`, `rel_attr` -/
def RelAttrTree.action : RelAttrTree → RelAttr
  | id name => { relationName := "", attributeName := name }
  | idDotId relation name => { relationName := relation, attributeName := name }

/-- Source: `yacc_sql.y`, `value` -/
def ValueTree.action : ValueTree → Value
  | number v => .ints v
  | float v => .floats v
  | sss quote body =>
    let text := quote :: body ++ [quote]
    .chars (substr text 1 (text.length - 2))

/-- Source: `yacc_sql.y`, `comp_op` -/
def CompOpTree.action : CompOpTree → CompOp
  | eq => .equalTo
  | lt => .lessThan
  | gt => .greatThan
  | le => .lessEqual
  | ge => .greatEqual
  | ne => .notEqual

/-- The members of a new object are set that the form has. Source: `yacc_sql.y`, `condition` -/
def ConditionTree.action (fresh : ParsedCondition) : ConditionTree → ParsedCondition
  | attrValue left comp right =>
    { fresh with leftIsAttr := 1, leftAttr := left.action, rightIsAttr := 0,
                 rightValue := right.action, comp := comp.action }
  | valueValue left comp right =>
    { fresh with leftIsAttr := 0, leftValue := left.action, rightIsAttr := 0,
                 rightValue := right.action, comp := comp.action }
  | attrAttr left comp right =>
    { fresh with leftIsAttr := 1, leftAttr := left.action, rightIsAttr := 1,
                 rightAttr := right.action, comp := comp.action }
  | valueAttr left comp right =>
    { fresh with leftIsAttr := 0, leftValue := left.action, rightIsAttr := 1,
                 rightAttr := right.action, comp := comp.action }

/-- A pointer to a list of conditions, which may be null. -/
abbrev ConditionListPtr := Option (List ParsedCondition)

/-- Nothing comes back if the null pointer is dereferenced.
Source: `yacc_sql.y`, `condition_list` -/
def ConditionListTree.action (fresh : ℕ → ParsedCondition) :
    ConditionListTree → Option ConditionListPtr
  | empty => some none
  | single condition => some (some [condition.action (fresh 0)])
  | andThen condition rest => do
    match ← rest.action fun n => fresh (n + 1) with
    | none => none
    | some conditions => return some (conditions ++ [condition.action (fresh 0)])

/-- Source: `yacc_sql.y`, `where` -/
def WhereTree.action (fresh : ℕ → ParsedCondition) : WhereTree → Option ConditionListPtr
  | empty => some none
  | clause conditions => conditions.action fresh

/-! ## What the actions yield -/

/-- A condition as its users read it, by the flags of its sides. -/
def ParsedCondition.read (c : ParsedCondition) : Condition where
  left := if c.leftIsAttr ≠ 0 then .attr c.leftAttr else .value c.leftValue
  comp := c.comp
  right := if c.rightIsAttr ≠ 0 then .attr c.rightAttr else .value c.rightValue

/-- No null pointer is dereferenced, and the list has the conditions in reverse order. -/
def ParsedWhole (fresh : ℕ → ParsedCondition) (tree : WhereTree) : Prop :=
  ∃ ptr : ConditionListPtr, tree.action fresh = some ptr ∧
    (ptr.getD []).map ParsedCondition.read = tree.written.reverse

theorem RelAttrTree.action_eq (tree : RelAttrTree) : tree.action = tree.written := by
  cases tree <;> rfl

/-- The quotes are left out. -/
theorem ValueTree.action_eq (tree : ValueTree) : tree.action = tree.written := by
  cases tree with
  | number v => rfl
  | float v => rfl
  | sss quote body =>
    have hlen : (((quote :: body ++ [quote]).length : Int) - 2 - 1 + 1).toNat = body.length := by
      simp
      omega
    rw [action, written, substr, hlen]
    simp

theorem CompOpTree.action_eq (tree : CompOpTree) : tree.action = tree.written := by
  cases tree <;> rfl

/-- **A condition** is read with its sides and its operator as they are written. -/
theorem ConditionTree.read_action (fresh : ParsedCondition) (tree : ConditionTree) :
    (tree.action fresh).read = tree.written := by
  cases tree with
  | attrValue left comp right =>
    simp [action, ParsedCondition.read, written, RelAttrTree.action_eq, ValueTree.action_eq,
      CompOpTree.action_eq]
  | valueValue left comp right =>
    simp [action, ParsedCondition.read, written, ValueTree.action_eq, CompOpTree.action_eq]
  | attrAttr left comp right =>
    simp [action, ParsedCondition.read, written, RelAttrTree.action_eq, CompOpTree.action_eq]
  | valueAttr left comp right =>
    simp [action, ParsedCondition.read, written, RelAttrTree.action_eq, ValueTree.action_eq,
      CompOpTree.action_eq]

/-- `AND` is no part of a condition. -/
theorem ConditionTree.and_notMem (tree : ConditionTree) : Token.and ∉ tree.tokens := by
  have hattr : ∀ tree : RelAttrTree, Token.and ∉ tree.tokens := fun tree => by
    cases tree <;> simp [RelAttrTree.tokens]
  have hvalue : ∀ tree : ValueTree, Token.and ∉ tree.tokens := fun tree => by
    cases tree <;> simp [ValueTree.tokens]
  have hcomp : ∀ tree : CompOpTree, Token.and ≠ tree.token := fun tree => by
    cases tree <;> simp [CompOpTree.token]
  cases tree <;> simp [tokens, hattr, hvalue, hcomp]

/-- A condition ends in an operand. -/
theorem ConditionTree.getLast?_tokens (tree : ConditionTree) :
    tree.tokens ≠ [] ∧ tree.tokens.getLast? ≠ some .and := by
  refine ⟨?_, fun hlast => tree.and_notMem (List.mem_of_getLast? hlast)⟩
  cases tree <;> simp [tokens]

theorem ConditionListTree.tokens_ne_nil {tree : ConditionListTree} (h : tree ≠ empty) :
    tree.tokens ≠ [] := by
  cases tree with
  | empty => exact absurd rfl h
  | single condition => exact condition.getLast?_tokens.1
  | andThen condition rest => simp [tokens]

/-- **A list of conditions** that is not empty yields its conditions in reverse order, or it ends in
`AND` and the null pointer of its empty tail is dereferenced. By induction on the list. -/
theorem ConditionListTree.action_cases {tree : ConditionListTree} (h : tree ≠ empty)
    (fresh : ℕ → ParsedCondition) :
    (∃ conditions, tree.action fresh = some (some conditions) ∧
      conditions.map ParsedCondition.read = tree.written.reverse ∧
        tree.tokens.getLast? ≠ some .and) ∨
      tree.action fresh = none ∧ tree.tokens.getLast? = some .and := by
  induction tree generalizing fresh with
  | empty => exact absurd rfl h
  | single condition =>
    refine Or.inl ⟨[condition.action (fresh 0)], rfl, ?_, condition.getLast?_tokens.2⟩
    simp [written, ConditionTree.read_action]
  | andThen condition rest ih =>
    by_cases hrest : rest = empty
    · subst hrest
      refine Or.inr ⟨rfl, ?_⟩
      simp [tokens]
    · have hne := tokens_ne_nil hrest
      have hlast : (andThen condition rest).tokens.getLast? = rest.tokens.getLast? := by
        rw [tokens, List.getLast?_append, List.getLast?_cons_of_ne_nil hne]
        cases hget : rest.tokens.getLast? with
        | none => exact absurd (List.getLast?_eq_none_iff.mp hget) hne
        | some token => rfl
      rw [hlast]
      rcases ih hrest fun n => fresh (n + 1) with ⟨conditions, haction, hread, hand⟩ | ⟨haction, hand⟩
      · refine Or.inl ⟨conditions ++ [condition.action (fresh 0)], ?_, ?_, hand⟩
        · rw [action, haction]
          rfl
        · rw [List.map_append, hread, written, List.reverse_cons, List.map_singleton,
            ConditionTree.read_action]
      · refine Or.inr ⟨?_, hand⟩
        rw [action, haction]
        rfl

/-- **A clause is parsed whole** if and only if it does not end in `AND`. -/
theorem parsed_whole_iff (fresh : ℕ → ParsedCondition) (tree : WhereTree) :
    ParsedWhole fresh tree ↔ tree.tokens.getLast? ≠ some .and := by
  cases tree with
  | empty => exact iff_of_true ⟨none, rfl, rfl⟩ (by simp [WhereTree.tokens])
  | clause conditions =>
    by_cases hempty : conditions = .empty
    · subst hempty
      exact iff_of_true ⟨none, rfl, rfl⟩ (by simp [WhereTree.tokens, ConditionListTree.tokens])
    · rw [WhereTree.tokens,
        List.getLast?_cons_of_ne_nil (ConditionListTree.tokens_ne_nil hempty)]
      rcases conditions.action_cases hempty fresh with ⟨cs, haction, hread, hand⟩ | ⟨haction, hand⟩
      · exact iff_of_true ⟨some cs, haction, hread⟩ hand
      · refine iff_of_false ?_ (not_not.mpr hand)
        rintro ⟨ptr, hptr, -⟩
        have hptr : conditions.action fresh = some ptr := hptr
        rw [haction] at hptr
        cases hptr

/-- `WHERE a = 1 AND` -/
def trailingAnd : WhereTree :=
  .clause (.andThen (.attrValue (.id "a") .eq (.number 1)) .empty)

/-- An object whose memory is zero. -/
def zeroCondition : ParsedCondition := ⟨0, .ints 0, ⟨"", ""⟩, .equalTo, 0, ⟨"", ""⟩, .ints 0⟩

/-- The null pointer is dereferenced. -/
theorem trailingAnd_not_parsed : trailingAnd.action (fun _ => zeroCondition) = none ∧
    ¬ ParsedWhole (fun _ => zeroCondition) trailingAnd := by
  refine ⟨rfl, ?_⟩
  rintro ⟨ptr, hptr, -⟩
  cases hptr

end Miniob.Sql.Parser
