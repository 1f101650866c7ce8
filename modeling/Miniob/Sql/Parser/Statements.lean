import Miniob.Sql.Parser.Yyparse

/-!
# The written statements

The derivations of the statements of the grammar, with their tokens and what they are parsed into.

* `CommandTree` and the trees below it: a list with commas is a list. `lexemes` are the tokens and
  `command` is the command in which everything is in its place.
* `continues`: the tokens that are taken as a part of the statement if they come next.
* `CommandTree.reaches`: the parser goes from the tokens of a statement to its command.
* `statement_parsed`: whatever follows, the first command is that of the statement.
-/

namespace Miniob.Sql.Parser

open Miniob.Common Miniob.Storage.Meta
open Miniob.Lib Miniob.Lib.ShiftReduce

/-! ## Tokens -/

/-- A token with its value. -/
abbrev Lexeme := Terminal × YyStype

/-- A token without a value. -/
def plain (token : Terminal) : Lexeme := (token, .unset)

/-- Source: `lex_sql.l`, `ID` -/
def identifier (name : String) : Lexeme := (.id, .string name)

/-- Source: `lex_sql.l`, `NUMBER` -/
def integer (v : Int) : Lexeme := (.number, .number v)

/-- A token of a condition with its value. -/
def Token.lexeme : Token → Lexeme
  | .whereToken => plain .whereToken
  | .and => plain .and
  | .dot => plain .dot
  | .eq => plain .eq
  | .lt => plain .lt
  | .gt => plain .gt
  | .le => plain .le
  | .ge => plain .ge
  | .ne => plain .ne
  | .id name => identifier name
  | .number v => integer v
  | .float v => (.float, .floats v)
  | .sss text => (.sss, .text text)

/-- The tokens of elements that have a comma before them. -/
def commaList {α : Type} (lexemes : α → List Lexeme) (as : List α) : List Lexeme :=
  as.flatMap fun a => plain .comma :: lexemes a

/-! ## Derivations -/

/-- Source: `yacc_sql.y`, `type` -/
inductive TypeTree
  | intT
  | stringT
  | floatT

/-- Source: `yacc_sql.y`, `attr_def` -/
inductive AttrDefTree
  | sized (name : String) (type : TypeTree) (length : Int)
  | plain (name : String) (type : TypeTree)

/-- Source: `yacc_sql.y`, `select_attr` -/
inductive SelectAttrTree
  | star
  | attrs (first : RelAttrTree) (rest : List RelAttrTree)

/-- Source: `yacc_sql.y`, `command_wrapper` -/
inductive CommandTree
  | select (attrs : SelectAttrTree) (relation : String) (relations : List String)
      (conditions : WhereTree)
  | insert (relation : String) (value : ValueTree) (values : List ValueTree)
  | update (relation attr : String) (value : ValueTree) (conditions : WhereTree)
  | delete (relation : String) (conditions : WhereTree)
  | createTable (relation : String) (attr : AttrDefTree) (attrs : List AttrDefTree)
  | dropTable (relation : String)
  | showTables
  | descTable (relation : String)
  | createIndex (index relation attr : String)
  | dropIndex (index relation : String)
  | sync
  | begin
  | commit
  | rollback
  | loadData (quote : Byte) (file : List Byte) (relation : String)
  | explain (cmd : CommandTree)
  | help
  | exit

/-! ## The tokens of a statement -/

/-- The tokens of a name. -/
def RelAttrTree.lexemes (tree : RelAttrTree) : List Lexeme := tree.tokens.map Token.lexeme

/-- The token of a constant. -/
def ValueTree.lexemes (tree : ValueTree) : List Lexeme := tree.tokens.map Token.lexeme

/-- The tokens of a condition. -/
def ConditionTree.lexemes (tree : ConditionTree) : List Lexeme := tree.tokens.map Token.lexeme

/-- The tokens of a list of conditions. -/
def ConditionListTree.lexemes (tree : ConditionListTree) : List Lexeme :=
  tree.tokens.map Token.lexeme

/-- The tokens of a clause. -/
def WhereTree.lexemes (tree : WhereTree) : List Lexeme := tree.tokens.map Token.lexeme

/-- The token of a type. -/
def TypeTree.token : TypeTree → Terminal
  | intT => .intT
  | stringT => .stringT
  | floatT => .floatT

/-- The tokens of a column. -/
def AttrDefTree.lexemes : AttrDefTree → List Lexeme
  | sized name type length =>
    [identifier name, Parser.plain type.token, Parser.plain .lbrace, integer length,
      Parser.plain .rbrace]
  | plain name type => [identifier name, Parser.plain type.token]

/-- The tokens of a select list. -/
def SelectAttrTree.lexemes : SelectAttrTree → List Lexeme
  | star => [plain .star]
  | attrs first rest => first.lexemes ++ commaList RelAttrTree.lexemes rest

/-- The tokens of a statement. -/
def CommandTree.lexemes : CommandTree → List Lexeme
  | select attrs relation relations conditions =>
    plain .select :: (attrs.lexemes ++ plain .fromToken :: identifier relation ::
      (commaList (fun name => [identifier name]) relations ++ conditions.lexemes))
  | insert relation value values =>
    plain .insert :: plain .into :: identifier relation :: plain .values :: plain .lbrace ::
      (value.lexemes ++ (commaList ValueTree.lexemes values ++ [plain .rbrace]))
  | update relation attr value conditions =>
    plain .update :: identifier relation :: plain .setToken :: identifier attr :: plain .eq ::
      (value.lexemes ++ conditions.lexemes)
  | delete relation conditions =>
    plain .delete :: plain .fromToken :: identifier relation :: conditions.lexemes
  | createTable relation attr attrs =>
    plain .create :: plain .table :: identifier relation :: plain .lbrace ::
      (attr.lexemes ++ (commaList AttrDefTree.lexemes attrs ++ [plain .rbrace]))
  | dropTable relation => [plain .drop, plain .table, identifier relation]
  | showTables => [plain .showToken, plain .tables]
  | descTable relation => [plain .desc, identifier relation]
  | createIndex index relation attr =>
    [plain .create, plain .index, identifier index, plain .on, identifier relation, plain .lbrace,
      identifier attr, plain .rbrace]
  | dropIndex index relation =>
    [plain .drop, plain .index, identifier index, plain .on, identifier relation]
  | sync => [plain .sync]
  | begin => [plain .trxBegin]
  | commit => [plain .trxCommit]
  | rollback => [plain .trxRollback]
  | loadData quote file relation =>
    [plain .load, plain .data, plain .infile, (.sss, .text (quote :: file ++ [quote])), plain .into,
      plain .table, identifier relation]
  | explain cmd => plain .explain :: cmd.lexemes
  | help => [plain .help]
  | exit => [plain .exit]

/-! ## What a statement says -/

/-- The type that is written. -/
def TypeTree.written : TypeTree → AttrType
  | intT => .ints
  | stringT => .chars
  | floatT => .floats

/-- The column that is written, of four bytes if no length is. -/
def AttrDefTree.written : AttrDefTree → AttrInfo
  | sized name type length => ⟨type.written, name, toSizeT length⟩
  | plain name type => ⟨type.written, name, 4⟩

/-- The select list as the actions of the parser push it. -/
def SelectAttrTree.pushed : SelectAttrTree → List RelAttr
  | star => selectStar
  | attrs first rest => selectAttr first.written (rest.map RelAttrTree.written)

/-- The conditions as the actions of the parser push them. -/
def WhereTree.pushed (tree : WhereTree) : List Condition := conditionList tree.written

/-- The command of a statement: values, columns and tables are in written order, and the select list
and the conditions are as they are pushed. -/
def CommandTree.command : CommandTree → Command
  | select attrs relation relations conditions =>
    .select (Miniob.Sql.select attrs.pushed relation relations conditions.pushed)
  | insert relation value values =>
    .insert ⟨relation, value.written :: values.map ValueTree.written⟩
  | update relation attr value conditions =>
    .update ⟨relation, attr, value.written, conditions.pushed⟩
  | delete relation conditions => .delete ⟨relation, conditions.pushed⟩
  | createTable relation attr attrs =>
    .createTable ⟨relation, attr.written :: attrs.map AttrDefTree.written⟩
  | dropTable relation => .dropTable relation
  | showTables => .showTables
  | descTable relation => .descTable relation
  | createIndex index relation attr => .createIndex ⟨index, relation, attr⟩
  | dropIndex index relation => .dropIndex ⟨index, relation⟩
  | sync => .sync
  | begin => .begin
  | commit => .commit
  | rollback => .rollback
  | loadData quote file relation => .loadData ⟨relation, quote :: file ++ [quote]⟩
  | explain cmd => .explain cmd.command
  | help => .help
  | exit => .exit

/-! ## What may follow -/

/-- A dot after a column is taken as a part of its name. -/
def RelAttrTree.continues (tree : RelAttrTree) (next : Terminal) : Bool :=
  match tree with
  | id _ => next = .dot
  | idDotId _ _ => false

/-- The tokens that are taken as a part of a condition. -/
def ConditionTree.continues (tree : ConditionTree) (next : Terminal) : Bool :=
  match tree with
  | attrValue _ _ _ | valueValue _ _ _ => false
  | attrAttr _ _ right | valueAttr _ _ right => right.continues next

/-- The tokens that are taken as a part of a list of conditions. -/
def ConditionListTree.continues (next : Terminal) : ConditionListTree → Bool
  | empty => next ∈ [Terminal.id, .number, .float, .sss]
  | single condition => next = .and || condition.continues next
  | andThen _ rest => rest.continues next

/-- The tokens that are taken as a part of a clause. -/
def WhereTree.continues (tree : WhereTree) (next : Terminal) : Bool :=
  match tree with
  | empty => next = .whereToken
  | clause conditions => conditions.continues next

/-- The tokens that are taken as a part of a statement. -/
def CommandTree.continues (next : Terminal) : CommandTree → Bool
  | select _ _ _ conditions =>
    conditions.continues next ||
      match conditions with
      | .empty => next = .comma
      | .clause _ => false
  | update _ _ _ conditions | delete _ conditions => conditions.continues next
  | explain cmd => cmd.continues next
  | _ => false

/-- No condition ends in `AND`. -/
def CommandTree.Whole : CommandTree → Prop
  | select _ _ _ conditions | update _ _ _ conditions | delete _ conditions =>
    conditions.tokens.getLast? ≠ some .and
  | explain cmd => cmd.Whole
  | _ => True

/-! ## Runs -/

variable {stack : List (ℕ × YyStype)} {input : List Lexeme} {e : Effects} {q : ℕ}
  {next : Terminal}

/-- The tokens that the tables have an entry for, in the states where a list or a name may end. -/
def yyentries : List (ℕ × List Terminal) :=
  [(17, [.eof]), (18, [.semicolon]), (41, [.dot]), (44, [.comma]), (64, [.whereToken]),
   (71, [.comma]), (72, [.comma]), (74, [.id, .number, .float, .sss]), (79, [.comma]),
   (83, [.whereToken]), (92, [.and]), (98, [.lbrace]), (102, [.comma]), (104, [.comma]),
   (113, [.id, .number, .float, .sss]), (114, [.whereToken]), (117, [.comma]), (134, [.comma])]

theorem yyentries_checked : ∀ row ∈ yyentries, ∀ i < yyntokens,
    Terminal.ofNat i ∉ row.2 → yymove row.1 (.ofNat i) = yydefault row.1 := by
  decide

theorem yymove_default {s : ℕ} {tokens : List Terminal} (h : (s, tokens) ∈ yyentries)
    (hnext : next ∉ tokens) : yymove s next = yydefault s :=
  Terminal.forall_of (p := fun next => next ∉ tokens → yymove s next = yydefault s)
    (yyentries_checked _ h) next hnext

theorem yymove_default_of_ne {s : ℕ} {token : Terminal} (h : (s, [token]) ∈ yyentries)
    (hnext : next ≠ token) : yymove s next = yydefault s :=
  yymove_default h (by simpa using hnext)

/-- A column ends where no dot follows. -/
theorem yymove_relAttr (h : next ≠ .dot) : yymove 41 next = .reduce 52 :=
  yymove_default_of_ne (by decide) h

theorem RelAttrTree.reaches (tree : RelAttrTree)
    (hstate : yymove (sqlParser.state stack) .id = .shift 41)
    (hgoto : yygoto (sqlParser.state stack) .relAttr = q)
    (hnext : tree.continues (sqlParser.lookahead input) = false) :
    sqlParser.Reaches ⟨stack, tree.lexemes ++ input, e⟩
      ⟨(q, .relAttr tree.action) :: stack, input, e⟩ := by
  cases tree with
  | id name =>
    have hdot : sqlParser.lookahead input ≠ .dot := by simpa [continues] using hnext
    refine shift_then hstate ?_
    exact reduce_then [_] (yymove_relAttr hdot) rfl rfl hgoto (.refl _)
  | idDotId relation name =>
    refine shift_then hstate (shift_then (q := 59) rfl (shift_then (q := 70) rfl ?_))
    exact reduce_then [_, _, _] rfl rfl rfl hgoto (.refl _)

/-- What a state does before a constant. -/
structure AtValue (s : ℕ) : Prop where
  number : yymove s .number = .shift 86
  float : yymove s .float = .shift 87
  sss : yymove s .sss = .shift 88

theorem ValueTree.reaches (tree : ValueTree) (hstate : AtValue (sqlParser.state stack))
    (hgoto : yygoto (sqlParser.state stack) .value = q) :
    sqlParser.Reaches ⟨stack, tree.lexemes ++ input, e⟩
      ⟨(q, .value tree.action) :: stack, input, e⟩ := by
  cases tree with
  | number v => exact shift_then hstate.number (reduce_then [_] rfl rfl rfl hgoto (.refl _))
  | float v => exact shift_then hstate.float (reduce_then [_] rfl rfl rfl hgoto (.refl _))
  | sss quote body => exact shift_then hstate.sss (reduce_then [_] rfl rfl rfl hgoto (.refl _))

/-- An operator follows the left side of a condition. -/
theorem CompOpTree.reaches (tree : CompOpTree)
    (hstate : sqlParser.state stack = 89 ∨ sqlParser.state stack = 90)
    (hgoto : yygoto (sqlParser.state stack) .compOp = q) :
    sqlParser.Reaches ⟨stack, tree.token.lexeme :: input, e⟩
      ⟨(q, .comp tree.action) :: stack, input, e⟩ := by
  have hshift : ∃ q', yymove (sqlParser.state stack) tree.token.lexeme.1 = .shift q' ∧
      ∃ r, (∀ next, yymove q' next = .reduce r) ∧ sqlParser.length r = 1 ∧
        sqlParser.lhs r = .compOp ∧
          ∀ v, sqlParser.action r [v] e = some (.comp tree.action, e) := by
    rcases hstate with hstate | hstate <;> rw [hstate] <;> cases tree <;>
      exact ⟨_, rfl, _, fun _ => rfl, rfl, rfl, fun _ => rfl⟩
  obtain ⟨q', hmove, r, hreduce, hlength, hlhs, haction⟩ := hshift
  refine shift_then hmove ?_
  exact reduce_then [_] (hreduce _) hlength (haction _) (by rw [hlhs]; exact hgoto) (.refl _)

/-- What a state does before a condition. -/
structure AtCondition (s : ℕ) : Prop where
  id : yymove s .id = .shift 41
  value : AtValue s
  gotoRelAttr : yygoto s .relAttr = 90
  gotoValue : yygoto s .value = 89

theorem ConditionTree.reaches (tree : ConditionTree) (hstate : AtCondition (sqlParser.state stack))
    (hgoto : yygoto (sqlParser.state stack) .condition = q)
    (hnext : tree.continues (sqlParser.lookahead input) = false) :
    sqlParser.Reaches ⟨stack, tree.lexemes ++ input, e⟩
      ⟨(q, .condition (tree.action (e.fresh 0))) :: stack, input,
        { e with fresh := fun n => e.fresh (n + 1) }⟩ := by
  have hcomp : ∀ (left : RelAttrTree) (comp : CompOpTree) (rest : List Lexeme),
      left.continues (sqlParser.lookahead (comp.token.lexeme :: rest)) = false := by
    intro left comp rest
    cases left <;> cases comp <;> rfl
  cases tree with
  | attrValue left comp right =>
    have hlexemes : (attrValue left comp right).lexemes ++ input =
        left.lexemes ++ (comp.token.lexeme :: (right.lexemes ++ input)) := by
      simp [lexemes, tokens, RelAttrTree.lexemes, ValueTree.lexemes]
    rw [hlexemes]
    refine (left.reaches hstate.id hstate.gotoRelAttr (hcomp _ _ _)).trans ?_
    refine (comp.reaches (q := 112) (.inr rfl) rfl).trans ?_
    refine (right.reaches (q := 125) ⟨rfl, rfl, rfl⟩ rfl).trans ?_
    exact reduce_then [_, _, _] rfl rfl rfl hgoto (.refl _)
  | valueValue left comp right =>
    have hlexemes : (valueValue left comp right).lexemes ++ input =
        left.lexemes ++ (comp.token.lexeme :: (right.lexemes ++ input)) := by
      simp [lexemes, tokens, ValueTree.lexemes]
    rw [hlexemes]
    refine (left.reaches hstate.value hstate.gotoValue).trans ?_
    refine (comp.reaches (q := 111) (.inl rfl) rfl).trans ?_
    refine (right.reaches (q := 123) ⟨rfl, rfl, rfl⟩ rfl).trans ?_
    exact reduce_then [_, _, _] rfl rfl rfl hgoto (.refl _)
  | attrAttr left comp right =>
    have hlexemes : (attrAttr left comp right).lexemes ++ input =
        left.lexemes ++ (comp.token.lexeme :: (right.lexemes ++ input)) := by
      simp [lexemes, tokens, RelAttrTree.lexemes]
    rw [hlexemes]
    refine (left.reaches hstate.id hstate.gotoRelAttr (hcomp _ _ _)).trans ?_
    refine (comp.reaches (q := 112) (.inr rfl) rfl).trans ?_
    refine (right.reaches (q := 126) rfl rfl hnext).trans ?_
    exact reduce_then [_, _, _] rfl rfl rfl hgoto (.refl _)
  | valueAttr left comp right =>
    have hlexemes : (valueAttr left comp right).lexemes ++ input =
        left.lexemes ++ (comp.token.lexeme :: (right.lexemes ++ input)) := by
      simp [lexemes, tokens, RelAttrTree.lexemes, ValueTree.lexemes]
    rw [hlexemes]
    refine (left.reaches hstate.value hstate.gotoValue).trans ?_
    refine (comp.reaches (q := 111) (.inl rfl) rfl).trans ?_
    refine (right.reaches (q := 124) rfl rfl hnext).trans ?_
    exact reduce_then [_, _, _] rfl rfl rfl hgoto (.refl _)

/-- What a state does before a list of conditions. -/
structure AtConditionList (s : ℕ) : Prop where
  condition : AtCondition s
  gotoCondition : yygoto s .condition = 92
  empty : ∀ next ∉ [Terminal.id, .number, .float, .sss], yymove s next = .reduce 60

theorem atConditionList_where : AtConditionList 74 where
  condition := ⟨rfl, ⟨rfl, rfl, rfl⟩, rfl, rfl⟩
  gotoCondition := rfl
  empty := fun _ => yymove_default (by decide)

theorem atConditionList_and : AtConditionList 113 where
  condition := ⟨rfl, ⟨rfl, rfl, rfl⟩, rfl, rfl⟩
  gotoCondition := rfl
  empty := fun _ => yymove_default (by decide)

/-- A list of conditions ends where no `AND` follows. -/
theorem yymove_condition (h : next ≠ .and) : yymove 92 next = .reduce 61 :=
  yymove_default_of_ne (by decide) h

/-- `AND` is no part of a condition. -/
theorem ConditionTree.continues_and (tree : ConditionTree) : tree.continues .and = false := by
  cases tree with
  | attrValue left comp right => rfl
  | valueValue left comp right => rfl
  | attrAttr left comp right => cases right <;> rfl
  | valueAttr left comp right => cases right <;> rfl

/-- By induction on the list, whose tail is parsed first. -/
theorem ConditionListTree.reaches (tree : ConditionListTree) {ptr : ConditionListPtr}
    (hstate : AtConditionList (sqlParser.state stack))
    (hgoto : yygoto (sqlParser.state stack) .conditionList = q)
    (hnext : tree.continues (sqlParser.lookahead input) = false)
    (haction : tree.action e.fresh = some ptr) :
    ∃ fresh, sqlParser.Reaches ⟨stack, tree.lexemes ++ input, e⟩
      ⟨(q, .conditionList ptr) :: stack, input, { e with fresh := fresh }⟩ := by
  induction tree generalizing stack q e ptr with
  | empty =>
    cases haction
    have hmove := hstate.empty (sqlParser.lookahead input) (by simpa [continues] using hnext)
    exact ⟨e.fresh, reduce_then [] hmove rfl rfl hgoto (.refl _)⟩
  | single condition =>
    cases haction
    simp only [continues, Bool.or_eq_false_iff, decide_eq_false_iff_not] at hnext
    refine ⟨fun n => e.fresh (n + 1), ?_⟩
    refine (condition.reaches hstate.condition hstate.gotoCondition hnext.2).trans ?_
    exact reduce_then [_] (yymove_condition hnext.1) rfl rfl hgoto (.refl _)
  | andThen condition rest ih =>
    rw [action] at haction
    cases hrest : rest.action fun n => e.fresh (n + 1) with
    | none =>
      rw [hrest] at haction
      cases haction
    | some ptr' =>
      rw [hrest] at haction
      cases ptr' with
      | none => cases haction
      | some conditions =>
        cases haction
        have hlexemes : (andThen condition rest).lexemes ++ input =
            condition.lexemes ++ (plain .and :: (rest.lexemes ++ input)) := by
          simp [lexemes, tokens, ConditionTree.lexemes, Token.lexeme]
        have htail : ∃ fresh, sqlParser.Reaches
            ⟨(113, .unset) :: (92, .condition (condition.action (e.fresh 0))) :: stack,
              rest.lexemes ++ input, { e with fresh := fun n => e.fresh (n + 1) }⟩
            ⟨(127, .conditionList (some conditions)) :: (113, .unset) ::
              (92, .condition (condition.action (e.fresh 0))) :: stack, input,
              { e with fresh := fresh }⟩ :=
          ih atConditionList_and rfl hnext hrest
        obtain ⟨fresh, htail⟩ := htail
        refine ⟨fresh, ?_⟩
        rw [hlexemes]
        refine Reaches.trans (condition.reaches hstate.condition hstate.gotoCondition
          condition.continues_and) (shift_then (q := 113) rfl (htail.trans ?_))
        exact reduce_then [_, _, _] rfl rfl rfl hgoto (.refl _)

/-- What a state does before a clause. -/
structure AtWhere (s : ℕ) : Prop where
  whereToken : yymove s .whereToken = .shift 74
  empty : ∀ next ≠ .whereToken, yymove s next = .reduce 58

theorem WhereTree.reaches (tree : WhereTree) {ptr : ConditionListPtr}
    (hstate : AtWhere (sqlParser.state stack))
    (hgoto : yygoto (sqlParser.state stack) .whereClause = q)
    (hnext : tree.continues (sqlParser.lookahead input) = false)
    (haction : tree.action e.fresh = some ptr) :
    ∃ fresh, sqlParser.Reaches ⟨stack, tree.lexemes ++ input, e⟩
      ⟨(q, .conditionList ptr) :: stack, input, { e with fresh := fresh }⟩ := by
  cases tree with
  | empty =>
    cases haction
    have hmove := hstate.empty (sqlParser.lookahead input) (by simpa [continues] using hnext)
    exact ⟨e.fresh, reduce_then [] hmove rfl rfl hgoto (.refl _)⟩
  | clause conditions =>
    have htail : ∃ fresh, sqlParser.Reaches
        ⟨(74, .unset) :: stack, conditions.lexemes ++ input, e⟩
        ⟨(91, .conditionList ptr) :: (74, .unset) :: stack, input, { e with fresh := fresh }⟩ :=
      conditions.reaches atConditionList_where rfl hnext haction
    obtain ⟨fresh, htail⟩ := htail
    refine ⟨fresh, shift_then hstate.whereToken (htail.trans ?_)⟩
    exact reduce_then [_, _] rfl rfl rfl hgoto (.refl _)

/-! ## Lists with commas -/

@[simp] theorem commaList_nil {α : Type} (lexemes : α → List Lexeme) :
    commaList lexemes [] = [] := rfl

theorem commaList_cons {α : Type} (lexemes : α → List Lexeme) (a : α) (as : List α) :
    commaList lexemes (a :: as) = plain .comma :: (lexemes a ++ commaList lexemes as) := rfl

/-- The list that a right recursive production makes. -/
def emplaced {α : Type} (as : List α) : Option (List α) :=
  as.foldr (fun a list => emplaceBack list a) none

theorem getD_emplaced {α : Type} (as : List α) : (emplaced as).getD [] = as.reverse := by
  induction as with
  | nil => rfl
  | cons a as ih =>
    rw [List.reverse_cons, ← ih]
    rfl

/-- What a state does before a list of elements that have a comma before them. -/
structure AtList (comma empty s : ℕ) : Prop where
  comma : yymove s .comma = .shift comma
  empty : ∀ next ≠ .comma, yymove s next = .reduce empty

/-- The two productions of a list with commas, and the states of the second one. -/
structure CommaRules {α β : Type} (lexemes : α → List Lexeme) (value : α → YyStype)
    (written : α → β) (listValue : Option (List β) → YyStype) (list : Nonterminal)
    (comma empty element tail : ℕ) (stop : Terminal) : Prop where
  stop_ne : stop ≠ .comma
  element_spec : ∀ (a : α) {stack input e}, sqlParser.state stack = comma →
    sqlParser.lookahead input = .comma ∨ sqlParser.lookahead input = stop →
    sqlParser.Reaches ⟨stack, lexemes a ++ input, e⟩ ⟨(element, value a) :: stack, input, e⟩
  atList : AtList comma empty element
  gotoList : yygoto element list = tail
  length_empty : sqlParser.length empty = 0
  lhs_empty : sqlParser.lhs empty = list
  action_empty : ∀ e, sqlParser.action empty [] e = some (listValue none, e)
  tail_spec : ∃ r, (∀ next, yymove tail next = .reduce r) ∧ sqlParser.length r = 3 ∧
    sqlParser.lhs r = list ∧ ∀ v a as e,
      sqlParser.action r [v, value a, listValue as] e =
        some (listValue (emplaceBack as (written a)), e)

/-- **A list with commas** is parsed from its end. By induction on the list. -/
theorem CommaRules.reaches {α β : Type} {lexemes : α → List Lexeme} {value : α → YyStype}
    {written : α → β} {listValue : Option (List β) → YyStype} {list : Nonterminal}
    {comma empty element tail : ℕ} {stop : Terminal}
    (h : CommaRules lexemes value written listValue list comma empty element tail stop)
    (as : List α) (hstate : AtList comma empty (sqlParser.state stack))
    (hgoto : yygoto (sqlParser.state stack) list = q) (hstop : sqlParser.lookahead input = stop) :
    sqlParser.Reaches ⟨stack, commaList lexemes as ++ input, e⟩
      ⟨(q, listValue (emplaced (as.map written))) :: stack, input, e⟩ := by
  induction as generalizing stack q with
  | nil =>
    have hmove := hstate.empty stop h.stop_ne
    rw [← hstop] at hmove
    refine reduce_then [] hmove h.length_empty (h.action_empty e) ?_ (.refl _)
    rw [h.lhs_empty]
    exact hgoto
  | cons a as ih =>
    obtain ⟨r, hreduce, hlength, hlhs, haction⟩ := h.tail_spec
    have hlook : sqlParser.lookahead (commaList lexemes as ++ input) = .comma ∨
        sqlParser.lookahead (commaList lexemes as ++ input) = stop := by
      cases as with
      | nil => exact .inr hstop
      | cons a' as => exact .inl rfl
    rw [commaList_cons, List.cons_append, List.append_assoc]
    refine shift_then hstate.comma ?_
    refine Reaches.trans (h.element_spec a rfl hlook) ?_
    refine Reaches.trans (ih h.atList h.gotoList) ?_
    refine reduce_then [_, _, _] (hreduce _) hlength (haction _ _ _ _) ?_ (.refl _)
    rw [hlhs]
    exact hgoto

theorem atAttrList : AtList 61 54 44 := ⟨rfl, fun _ => yymove_default_of_ne (by decide)⟩

theorem atValueList : AtList 121 42 104 := ⟨rfl, fun _ => yymove_default_of_ne (by decide)⟩

theorem atRelList : AtList 82 56 71 := ⟨rfl, fun _ => yymove_default_of_ne (by decide)⟩

theorem atAttrDefList : AtList 99 33 79 := ⟨rfl, fun _ => yymove_default_of_ne (by decide)⟩

/-- Source: `yacc_sql.y`, `attr_list` -/
theorem attrListRules : CommaRules RelAttrTree.lexemes (fun attr => .relAttr attr.action)
    RelAttrTree.action .relAttrList .attrList 61 54 72 84 .fromToken where
  stop_ne := by decide
  element_spec := by
    intro attr stack input e hstate hnext
    refine attr.reaches (by rw [hstate]; rfl) (by rw [hstate]; rfl) ?_
    rcases hnext with hnext | hnext <;> rw [hnext] <;> cases attr <;> rfl
  atList := ⟨rfl, fun _ => yymove_default_of_ne (by decide)⟩
  gotoList := rfl
  length_empty := rfl
  lhs_empty := rfl
  action_empty := fun _ => rfl
  tail_spec := ⟨55, fun _ => rfl, rfl, rfl, fun _ _ _ _ => rfl⟩

/-- Source: `yacc_sql.y`, `value_list` -/
theorem valueListRules : CommaRules ValueTree.lexemes (fun value => .value value.action)
    ValueTree.action .valueList .valueList 121 42 134 137 .rbrace where
  stop_ne := by decide
  element_spec := by
    intro value stack input e hstate hnext
    refine value.reaches ?_ (by rw [hstate]; rfl)
    rw [hstate]
    exact ⟨rfl, rfl, rfl⟩
  atList := ⟨rfl, fun _ => yymove_default_of_ne (by decide)⟩
  gotoList := rfl
  length_empty := rfl
  lhs_empty := rfl
  action_empty := fun _ => rfl
  tail_spec := ⟨43, fun _ => rfl, rfl, rfl, fun _ _ _ _ => rfl⟩

/-- Source: `yacc_sql.y`, `rel_list` -/
theorem relListRules (hstop : next ≠ .comma) : CommaRules (fun name => [identifier name])
    (fun name => .string name) (fun name => name) .relationList .relList 82 56 102 120 next where
  stop_ne := hstop
  element_spec := by
    intro name stack input e hstate hnext
    exact shift_then (by rw [hstate]; rfl) (.refl _)
  atList := ⟨rfl, fun _ => yymove_default_of_ne (by decide)⟩
  gotoList := rfl
  length_empty := rfl
  lhs_empty := rfl
  action_empty := fun _ => rfl
  tail_spec := ⟨57, fun _ => rfl, rfl, rfl, fun _ _ _ _ => rfl⟩

/-- A column without a length ends where no parenthesis follows. -/
theorem yymove_attrDef (h : next ≠ .lbrace) : yymove 98 next = .reduce 36 :=
  yymove_default_of_ne (by decide) h

theorem AttrDefTree.reaches (tree : AttrDefTree)
    (hstate : yymove (sqlParser.state stack) .id = .shift 78)
    (hgoto : yygoto (sqlParser.state stack) .attrDef = q)
    (hnext : sqlParser.lookahead input ≠ .lbrace) :
    sqlParser.Reaches ⟨stack, tree.lexemes ++ input, e⟩
      ⟨(q, .attrInfo tree.written) :: stack, input, e⟩ := by
  have htype : ∀ (name : String) (type : TypeTree) (input : List Lexeme),
      sqlParser.Reaches ⟨(78, .string name) :: stack, Parser.plain type.token :: input, e⟩
        ⟨(98, .attrType type.written) :: (78, .string name) :: stack, input, e⟩ := by
    intro name type input
    cases type with
    | intT => exact shift_then (q := 95) rfl (reduce_then [_] rfl rfl rfl rfl (.refl _))
    | stringT => exact shift_then (q := 96) rfl (reduce_then [_] rfl rfl rfl rfl (.refl _))
    | floatT => exact shift_then (q := 97) rfl (reduce_then [_] rfl rfl rfl rfl (.refl _))
  cases tree with
  | sized name type length =>
    refine shift_then hstate ((htype name type _).trans ?_)
    refine shift_then (q := 116) rfl (shift_then (q := 130) rfl ?_)
    refine reduce_then (q := 131) [_] rfl rfl rfl rfl (shift_then (q := 136) rfl ?_)
    exact reduce_then [_, _, _, _, _] rfl rfl rfl hgoto (.refl _)
  | plain name type =>
    refine shift_then hstate ((htype name type _).trans ?_)
    exact reduce_then [_, _] (yymove_attrDef hnext) rfl rfl hgoto (.refl _)

/-- Source: `yacc_sql.y`, `attr_def_list` -/
theorem attrDefListRules : CommaRules AttrDefTree.lexemes (fun attr => .attrInfo attr.written)
    AttrDefTree.written .attrInfos .attrDefList 99 33 117 132 .rbrace where
  stop_ne := by decide
  element_spec := by
    intro attr stack input e hstate hnext
    refine attr.reaches (by rw [hstate]; rfl) (by rw [hstate]; rfl) ?_
    rcases hnext with hnext | hnext <;> rw [hnext] <;> decide
  atList := ⟨rfl, fun _ => yymove_default_of_ne (by decide)⟩
  gotoList := rfl
  length_empty := rfl
  lhs_empty := rfl
  action_empty := fun _ => rfl
  tail_spec := ⟨34, fun _ => rfl, rfl, rfl, fun _ _ _ _ => rfl⟩

/-! ## Statements -/

/-- The conditions of a clause that does not end in `AND` are all there. -/
theorem WhereTree.action_of_whole {tree : WhereTree} (h : tree.tokens.getLast? ≠ some .and)
    (fresh : ℕ → ParsedCondition) :
    ∃ ptr, tree.action fresh = some ptr ∧ readConditions ptr = tree.pushed := by
  have hpushed : tree.pushed = tree.written.reverse := pushed_eq _
  rw [hpushed]
  cases tree with
  | empty => exact ⟨none, rfl, rfl⟩
  | clause conditions =>
    by_cases hempty : conditions = .empty
    · subst hempty
      exact ⟨none, rfl, rfl⟩
    · rw [WhereTree.tokens,
        List.getLast?_cons_of_ne_nil (ConditionListTree.tokens_ne_nil hempty)] at h
      rcases conditions.action_cases hempty fresh with ⟨cs, haction, hread, -⟩ | ⟨-, hand⟩
      · exact ⟨some cs, haction, hread⟩
      · exact absurd hand h

theorem pushed_eq_emplaced {α : Type} (as : List α) : pushed as = (emplaced as).getD [] := by
  rw [pushed_eq, getD_emplaced]

/-- The last production of a list that a statement begins with the first element of. -/
theorem reverse_emplaced {α : Type} (a : α) (as : List α) :
    ((emplaced as).getD [] ++ [a]).reverse = a :: as := by
  rw [getD_emplaced, List.reverse_append, List.reverse_reverse]
  rfl

theorem RelAttrTree.map_action (attrs : List RelAttrTree) :
    attrs.map RelAttrTree.action = attrs.map RelAttrTree.written :=
  List.map_congr_left fun attr _ => attr.action_eq

theorem ValueTree.map_action (values : List ValueTree) :
    values.map ValueTree.action = values.map ValueTree.written :=
  List.map_congr_left fun value _ => value.action_eq

theorem SelectAttrTree.reaches (tree : SelectAttrTree) (hstate : sqlParser.state stack = 3)
    (hnext : sqlParser.lookahead input = .fromToken) :
    sqlParser.Reaches ⟨stack, tree.lexemes ++ input, e⟩
      ⟨(43, .relAttrList (some tree.pushed)) :: stack, input, e⟩ := by
  cases tree with
  | star =>
    refine shift_then (q := 42) (by rw [hstate]; rfl) ?_
    exact reduce_then [_] rfl rfl rfl (by rw [hstate]; rfl) (.refl _)
  | attrs first rest =>
    have hlook : first.continues
        (sqlParser.lookahead (commaList RelAttrTree.lexemes rest ++ input)) = false := by
      cases rest with
      | nil =>
        rw [commaList_nil, List.nil_append, hnext]
        cases first <;> rfl
      | cons attr rest => cases first <;> rfl
    have hpushed : emplaceBack (emplaced (rest.map RelAttrTree.action)) first.action =
        some (attrs first rest).pushed := by
      rw [emplaceBack, ← pushed_eq_emplaced, RelAttrTree.map_action, first.action_eq]
      rfl
    rw [lexemes, List.append_assoc, ← hpushed]
    refine (first.reaches (q := 44) (by rw [hstate]; rfl) (by rw [hstate]; rfl) hlook).trans ?_
    refine Reaches.trans (attrListRules.reaches (q := 62) rest atAttrList rfl hnext) ?_
    exact reduce_then [_, _] rfl rfl rfl (by rw [hstate]; rfl) (.refl _)

/-- The states in which a statement begins. -/
def AtCommand (s : ℕ) : Prop := s = 0 ∨ s = 16

theorem AtCommand.move {s : ℕ} (h : AtCommand s) (next : Terminal) :
    yymove s next = yymove 0 next := by
  rcases h with rfl | rfl <;> rfl

theorem AtCommand.goto {s : ℕ} (h : AtCommand s) {n : Nonterminal} (hn : n ≠ .commandWrapper) :
    yygoto s n = yygoto 0 n := by
  rcases h with rfl | rfl
  · rfl
  · cases n with
    | commandWrapper => exact absurd rfl hn
    | _ => rfl

theorem atWhere_delete : AtWhere 64 := ⟨rfl, fun _ => yymove_default_of_ne (by decide)⟩

theorem atWhere_update : AtWhere 114 := ⟨rfl, fun _ => yymove_default_of_ne (by decide)⟩

theorem atWhere_select : AtWhere 83 := ⟨rfl, fun _ => yymove_default_of_ne (by decide)⟩

section statements

variable (hstate : AtCommand (sqlParser.state stack))
include hstate

theorem delete_reaches (relation : String) {conditions : WhereTree}
    (hwhole : conditions.tokens.getLast? ≠ some .and)
    (hnext : conditions.continues (sqlParser.lookahead input) = false) :
    ∃ fresh, sqlParser.Reaches ⟨stack, (CommandTree.delete relation conditions).lexemes ++ input, e⟩
      ⟨(32, .command (CommandTree.delete relation conditions).command) :: stack, input,
        { e with fresh := fresh }⟩ := by
  obtain ⟨ptr, haction, hread⟩ := WhereTree.action_of_whole hwhole e.fresh
  have hclause : ∃ fresh, sqlParser.Reaches
      ⟨(64, .string relation) :: (48, .unset) :: (8, .unset) :: stack,
        conditions.lexemes ++ input, e⟩
      ⟨(75, .conditionList ptr) :: (64, .string relation) :: (48, .unset) :: (8, .unset) :: stack,
        input, { e with fresh := fresh }⟩ :=
    conditions.reaches atWhere_delete rfl hnext haction
  obtain ⟨fresh, hclause⟩ := hclause
  refine ⟨fresh, shift_then (q := 8) (hstate.move _) ?_⟩
  refine shift_then (q := 48) rfl (shift_then (q := 64) rfl (hclause.trans ?_))
  rw [CommandTree.command, ← hread]
  exact reduce_then (r := 47) [_, _, _, _] rfl rfl rfl (hstate.goto (by decide)) (.refl _)

theorem update_reaches (relation attr : String) (value : ValueTree) {conditions : WhereTree}
    (hwhole : conditions.tokens.getLast? ≠ some .and)
    (hnext : conditions.continues (sqlParser.lookahead input) = false) :
    ∃ fresh, sqlParser.Reaches
      ⟨stack, (CommandTree.update relation attr value conditions).lexemes ++ input, e⟩
      ⟨(33, .command (CommandTree.update relation attr value conditions).command) :: stack, input,
        { e with fresh := fresh }⟩ := by
  obtain ⟨ptr, haction, hread⟩ := WhereTree.action_of_whole hwhole e.fresh
  have hclause : ∃ fresh, sqlParser.Reaches
      ⟨(114, .value value.action) :: (93, .unset) :: (76, .string attr) :: (65, .unset) ::
        (49, .string relation) :: (9, .unset) :: stack, conditions.lexemes ++ input, e⟩
      ⟨(128, .conditionList ptr) :: (114, .value value.action) :: (93, .unset) ::
        (76, .string attr) :: (65, .unset) :: (49, .string relation) :: (9, .unset) :: stack,
        input, { e with fresh := fresh }⟩ :=
    conditions.reaches atWhere_update rfl hnext haction
  obtain ⟨fresh, hclause⟩ := hclause
  have hlexemes : (CommandTree.update relation attr value conditions).lexemes ++ input =
      plain .update :: identifier relation :: plain .setToken :: identifier attr :: plain .eq ::
        (value.lexemes ++ (conditions.lexemes ++ input)) := by
    simp [CommandTree.lexemes]
  rw [hlexemes]
  refine ⟨fresh, shift_then (q := 9) (hstate.move _) (shift_then (q := 49) rfl ?_)⟩
  refine shift_then (q := 65) rfl (shift_then (q := 76) rfl (shift_then (q := 93) rfl ?_))
  refine Reaches.trans (value.reaches (q := 114) ⟨rfl, rfl, rfl⟩ rfl) (hclause.trans ?_)
  rw [CommandTree.command, ← hread, ← value.action_eq]
  exact reduce_then (r := 48) [_, _, _, _, _, _, _] rfl rfl rfl (hstate.goto (by decide)) (.refl _)

theorem select_reaches (attrs : SelectAttrTree) (relation : String) (relations : List String)
    {conditions : WhereTree} (hwhole : conditions.tokens.getLast? ≠ some .and)
    (hnext : (CommandTree.select attrs relation relations conditions).continues
      (sqlParser.lookahead input) = false) :
    ∃ fresh, sqlParser.Reaches
      ⟨stack, (CommandTree.select attrs relation relations conditions).lexemes ++ input, e⟩
      ⟨(34, .command (CommandTree.select attrs relation relations conditions).command) :: stack,
        input, { e with fresh := fresh }⟩ := by
  obtain ⟨ptr, haction, hread⟩ := WhereTree.action_of_whole hwhole e.fresh
  simp only [CommandTree.continues, Bool.or_eq_false_iff] at hnext
  obtain ⟨hnext, hcomma⟩ := hnext
  have hlook : sqlParser.lookahead (conditions.lexemes ++ input) ≠ .comma := by
    cases conditions with
    | empty => simpa [WhereTree.lexemes, WhereTree.tokens] using hcomma
    | clause conditions => exact (by decide : Terminal.whereToken ≠ .comma)
  have hclause : ∃ fresh, sqlParser.Reaches
      ⟨(83, .relationList (emplaced relations)) :: (71, .string relation) :: (60, .unset) ::
        (43, .relAttrList (some attrs.pushed)) :: (3, .unset) :: stack,
        conditions.lexemes ++ input, e⟩
      ⟨(103, .conditionList ptr) :: (83, .relationList (emplaced relations)) ::
        (71, .string relation) :: (60, .unset) :: (43, .relAttrList (some attrs.pushed)) ::
        (3, .unset) :: stack, input, { e with fresh := fresh }⟩ :=
    conditions.reaches atWhere_select rfl hnext haction
  obtain ⟨fresh, hclause⟩ := hclause
  have hrelations := (relListRules hlook).reaches (e := e) (q := 83) relations
    (show AtList 82 56 (sqlParser.state ((71, .string relation) :: (60, .unset) ::
      (43, .relAttrList (some attrs.pushed)) :: (3, .unset) :: stack)) from atRelList) rfl rfl
  have hlexemes : (CommandTree.select attrs relation relations conditions).lexemes ++ input =
      plain .select :: (attrs.lexemes ++ plain .fromToken :: identifier relation ::
        (commaList (fun name => [identifier name]) relations ++
          (conditions.lexemes ++ input))) := by
    simp [CommandTree.lexemes]
  have hcommand : (CommandTree.select attrs relation relations conditions).command =
      .select ⟨attrs.pushed, ((emplaced relations).getD [] ++ [relation]).reverse,
        readConditions ptr, by simp⟩ := by
    rw [CommandTree.command, ← hread]
    simp only [Miniob.Sql.select, relList, pushed_eq_emplaced]
  rw [List.map_id'] at hrelations
  rw [hlexemes, hcommand]
  refine ⟨fresh, shift_then (q := 3) (hstate.move _) ?_⟩
  refine Reaches.trans (attrs.reaches rfl rfl) ?_
  refine shift_then (q := 60) rfl (shift_then (q := 71) rfl (hrelations.trans (hclause.trans ?_)))
  exact reduce_then (r := 49) [_, _, _, _, _, _] rfl rfl rfl (hstate.goto (by decide)) (.refl _)

theorem insert_reaches (relation : String) (value : ValueTree) (values : List ValueTree) :
    sqlParser.Reaches ⟨stack, (CommandTree.insert relation value values).lexemes ++ input, e⟩
      ⟨(31, .command (CommandTree.insert relation value values).command) :: stack, input, e⟩ := by
  have hlexemes : (CommandTree.insert relation value values).lexemes ++ input =
      plain .insert :: plain .into :: identifier relation :: plain .values :: plain .lbrace ::
        (value.lexemes ++ (commaList ValueTree.lexemes values ++ (plain .rbrace :: input))) := by
    simp [CommandTree.lexemes]
  have hcommand : (CommandTree.insert relation value values).command =
      .insert ⟨relation, ((emplaced (values.map ValueTree.action)).getD [] ++
        [value.action]).reverse⟩ := by
    rw [reverse_emplaced, ValueTree.map_action, value.action_eq]
    rfl
  rw [hlexemes, hcommand]
  refine shift_then (q := 7) (hstate.move _) (shift_then (q := 47) rfl ?_)
  refine shift_then (q := 63) rfl (shift_then (q := 73) rfl (shift_then (q := 85) rfl ?_))
  refine Reaches.trans (value.reaches (q := 104) ⟨rfl, rfl, rfl⟩ rfl) ?_
  refine Reaches.trans (valueListRules.reaches (q := 122) values atValueList rfl rfl) ?_
  refine shift_then (q := 135) rfl ?_
  exact reduce_then (r := 41) [_, _, _, _, _, _, _, _] rfl rfl rfl (hstate.goto (by decide))
    (.refl _)

theorem createTable_reaches (relation : String) (attr : AttrDefTree) (attrs : List AttrDefTree) :
    sqlParser.Reaches ⟨stack, (CommandTree.createTable relation attr attrs).lexemes ++ input, e⟩
      ⟨(30, .command (CommandTree.createTable relation attr attrs).command) :: stack, input,
        e⟩ := by
  have hlexemes : (CommandTree.createTable relation attr attrs).lexemes ++ input =
      plain .create :: plain .table :: identifier relation :: plain .lbrace ::
        (attr.lexemes ++ (commaList AttrDefTree.lexemes attrs ++ (plain .rbrace :: input))) := by
    simp [CommandTree.lexemes]
  have hcommand : (CommandTree.createTable relation attr attrs).command =
      .createTable ⟨relation, ((emplaced (attrs.map AttrDefTree.written)).getD [] ++
        [attr.written]).reverse⟩ := by
    rw [reverse_emplaced]
    rfl
  have hlook : sqlParser.lookahead
      (commaList AttrDefTree.lexemes attrs ++ (plain .rbrace :: input)) ≠ .lbrace := by
    cases attrs with
    | nil => exact (by decide : Terminal.rbrace ≠ .lbrace)
    | cons attr' attrs => exact (by decide : Terminal.comma ≠ .lbrace)
  rw [hlexemes, hcommand]
  refine shift_then (q := 1) (hstate.move _) (shift_then (q := 37) rfl ?_)
  refine shift_then (q := 55) rfl (shift_then (q := 67) rfl ?_)
  refine Reaches.trans (attr.reaches (q := 79) rfl rfl hlook) ?_
  refine Reaches.trans (attrDefListRules.reaches (q := 100) attrs atAttrDefList rfl rfl) ?_
  refine shift_then (q := 118) rfl ?_
  exact reduce_then (r := 32) [_, _, _, _, _, _, _] rfl rfl rfl (hstate.goto (by decide)) (.refl _)

end statements

/-- A statement is a command. -/
theorem wrap_reaches {r : ℕ} {v : YyStype} (hmove : ∀ next, yymove q next = .reduce r)
    (hlength : sqlParser.length r = 1) (hlhs : sqlParser.lhs r = .commandWrapper)
    (haction : ∀ e, sqlParser.action r [v] e = some (v, e)) {c : Config ℕ Terminal YyStype Effects}
    (hreaches : sqlParser.Reaches c ⟨(q, v) :: stack, input, e⟩) :
    sqlParser.Reaches c
      ⟨(yygoto (sqlParser.state stack) .commandWrapper, v) :: stack, input, e⟩ := by
  refine hreaches.trans (reduce_then [_] (hmove _) hlength (haction e) ?_ (.refl _))
  rw [hlhs]
  rfl

/-- **The parser goes from the tokens of a statement to its command.** By induction on the
statement, which an `EXPLAIN` has another one in. -/
theorem CommandTree.reaches (tree : CommandTree) (hstate : AtCommand (sqlParser.state stack))
    (hwhole : tree.Whole) (hnext : tree.continues (sqlParser.lookahead input) = false) :
    ∃ fresh, sqlParser.Reaches ⟨stack, tree.lexemes ++ input, e⟩
      ⟨(yygoto (sqlParser.state stack) .commandWrapper, .command tree.command) :: stack, input,
        { e with fresh := fresh }⟩ := by
  induction tree generalizing stack with
  | select attrs relation relations conditions =>
    obtain ⟨fresh, h⟩ := select_reaches hstate attrs relation relations hwhole hnext
    exact ⟨fresh, wrap_reaches (fun _ => rfl) rfl rfl (fun _ => rfl) h⟩
  | insert relation value values =>
    exact ⟨e.fresh, wrap_reaches (fun _ => rfl) rfl rfl (fun _ => rfl)
      (insert_reaches hstate relation value values)⟩
  | update relation attr value conditions =>
    obtain ⟨fresh, h⟩ := update_reaches hstate relation attr value hwhole hnext
    exact ⟨fresh, wrap_reaches (fun _ => rfl) rfl rfl (fun _ => rfl) h⟩
  | delete relation conditions =>
    obtain ⟨fresh, h⟩ := delete_reaches hstate relation hwhole hnext
    exact ⟨fresh, wrap_reaches (fun _ => rfl) rfl rfl (fun _ => rfl) h⟩
  | createTable relation attr attrs =>
    exact ⟨e.fresh, wrap_reaches (fun _ => rfl) rfl rfl (fun _ => rfl)
      (createTable_reaches hstate relation attr attrs)⟩
  | dropTable relation =>
    refine ⟨e.fresh, wrap_reaches (q := 25) (fun _ => rfl) rfl rfl (fun _ => rfl) ?_⟩
    refine shift_then (q := 2) (hstate.move _) (shift_then (q := 39) rfl ?_)
    refine shift_then (q := 57) rfl ?_
    exact reduce_then (r := 27) [_, _, _] rfl rfl rfl (hstate.goto (by decide)) (.refl _)
  | showTables =>
    refine ⟨e.fresh, wrap_reaches (q := 26) (fun _ => rfl) rfl rfl (fun _ => rfl) ?_⟩
    refine shift_then (q := 5) (hstate.move _) (shift_then (q := 46) rfl ?_)
    exact reduce_then (r := 28) [_, _] rfl rfl rfl (hstate.goto (by decide)) (.refl _)
  | descTable relation =>
    refine ⟨e.fresh, wrap_reaches (q := 27) (fun _ => rfl) rfl rfl (fun _ => rfl) ?_⟩
    refine shift_then (q := 4) (hstate.move _) (shift_then (q := 45) rfl ?_)
    exact reduce_then (r := 29) [_, _] rfl rfl rfl (hstate.goto (by decide)) (.refl _)
  | createIndex index relation attr =>
    refine ⟨e.fresh, wrap_reaches (q := 28) (fun _ => rfl) rfl rfl (fun _ => rfl) ?_⟩
    refine shift_then (q := 1) (hstate.move _) (shift_then (q := 38) rfl ?_)
    refine shift_then (q := 56) rfl (shift_then (q := 68) rfl (shift_then (q := 80) rfl ?_))
    refine shift_then (q := 101) rfl (shift_then (q := 119) rfl (shift_then (q := 133) rfl ?_))
    exact reduce_then (r := 30) [_, _, _, _, _, _, _, _] rfl rfl rfl (hstate.goto (by decide))
      (.refl _)
  | dropIndex index relation =>
    refine ⟨e.fresh, wrap_reaches (q := 29) (fun _ => rfl) rfl rfl (fun _ => rfl) ?_⟩
    refine shift_then (q := 2) (hstate.move _) (shift_then (q := 40) rfl ?_)
    refine shift_then (q := 58) rfl (shift_then (q := 69) rfl (shift_then (q := 81) rfl ?_))
    exact reduce_then (r := 31) [_, _, _, _, _] rfl rfl rfl (hstate.goto (by decide)) (.refl _)
  | sync =>
    refine ⟨e.fresh, wrap_reaches (q := 21) (fun _ => rfl) rfl rfl (fun _ => rfl) ?_⟩
    refine shift_then (q := 6) (hstate.move _) ?_
    exact reduce_then (r := 23) [_] rfl rfl rfl (hstate.goto (by decide)) (.refl _)
  | begin =>
    refine ⟨e.fresh, wrap_reaches (q := 22) (fun _ => rfl) rfl rfl (fun _ => rfl) ?_⟩
    refine shift_then (q := 10) (hstate.move _) ?_
    exact reduce_then (r := 24) [_] rfl rfl rfl (hstate.goto (by decide)) (.refl _)
  | commit =>
    refine ⟨e.fresh, wrap_reaches (q := 23) (fun _ => rfl) rfl rfl (fun _ => rfl) ?_⟩
    refine shift_then (q := 11) (hstate.move _) ?_
    exact reduce_then (r := 25) [_] rfl rfl rfl (hstate.goto (by decide)) (.refl _)
  | rollback =>
    refine ⟨e.fresh, wrap_reaches (q := 24) (fun _ => rfl) rfl rfl (fun _ => rfl) ?_⟩
    refine shift_then (q := 12) (hstate.move _) ?_
    exact reduce_then (r := 26) [_] rfl rfl rfl (hstate.goto (by decide)) (.refl _)
  | loadData quote file relation =>
    refine ⟨e.fresh, wrap_reaches (q := 35) (fun _ => rfl) rfl rfl (fun _ => rfl) ?_⟩
    refine shift_then (q := 15) (hstate.move _) (shift_then (q := 50) rfl ?_)
    refine shift_then (q := 66) rfl (shift_then (q := 77) rfl (shift_then (q := 94) rfl ?_))
    refine shift_then (q := 115) rfl (shift_then (q := 129) rfl ?_)
    exact reduce_then (r := 73) [_, _, _, _, _, _, _] rfl rfl rfl (hstate.goto (by decide))
      (.refl _)
  | explain cmd ih =>
    have h : ∃ fresh, sqlParser.Reaches ⟨(16, .unset) :: stack, cmd.lexemes ++ input, e⟩
        ⟨(51, .command cmd.command) :: (16, .unset) :: stack, input, { e with fresh := fresh }⟩ :=
      ih (.inr rfl) hwhole hnext
    obtain ⟨fresh, h⟩ := h
    refine ⟨fresh, wrap_reaches (q := 36) (fun _ => rfl) rfl rfl (fun _ => rfl) ?_⟩
    refine shift_then (q := 16) (hstate.move _) (h.trans ?_)
    exact reduce_then (r := 74) [_, _] rfl rfl rfl (hstate.goto (by decide)) (.refl _)
  | help =>
    refine ⟨e.fresh, wrap_reaches (q := 20) (fun _ => rfl) rfl rfl (fun _ => rfl) ?_⟩
    refine shift_then (q := 13) (hstate.move _) ?_
    exact reduce_then (r := 22) [_] rfl rfl rfl (hstate.goto (by decide)) (.refl _)
  | exit =>
    refine ⟨e.fresh, wrap_reaches (q := 19) (fun _ => rfl) rfl rfl (fun _ => rfl) ?_⟩
    refine shift_then (q := 14) (hstate.move _) ?_
    exact reduce_then (r := 21) [_] rfl rfl rfl (hstate.goto (by decide)) (.refl _)

/-! ## Parsed statements -/

/-- What comes after a semicolon, if there is one. -/
def afterSemicolon : List Lexeme → List Lexeme
  | [] => []
  | token :: rest => if token.1 = .semicolon then rest else token :: rest

/-- What is returned for a statement that something follows. -/
def statementResult (tree : CommandTree) (rest : List Lexeme) : YyResult :=
  if sqlParser.lookahead (afterSemicolon rest) = .eof then ⟨0, [tree.command]⟩
  else ⟨1, [tree.command, .error]⟩

/-- A command ends where no semicolon follows. -/
theorem yymove_command (h : next ≠ .semicolon) : yymove 18 next = .reduce 75 :=
  yymove_default_of_ne (by decide) h

/-- Nothing but the end of the input may follow the commands. -/
theorem yymove_commands (h : next ≠ .eof) : yymove 17 next = .error :=
  yymove_default_of_ne (by decide) h

/-- A semicolon is passed over. -/
theorem commands_reaches (cmd : Command) (rest : List Lexeme) :
    sqlParser.Reaches ⟨[(18, .command cmd)], rest, e⟩ ⟨[(17, .command cmd)], afterSemicolon rest,
      { e with commands := e.commands ++ [cmd] }⟩ := by
  by_cases hsemicolon : sqlParser.lookahead rest = .semicolon
  · cases rest with
    | nil => cases hsemicolon
    | cons token rest =>
      have htoken : token.1 = .semicolon := hsemicolon
      obtain ⟨kind, value⟩ := token
      subst htoken
      refine shift_then (q := 53) rfl (reduce_then (q := 54) [_] rfl rfl rfl rfl ?_)
      exact reduce_then (q := 17) [_, _] rfl rfl rfl rfl (.refl _)
  · have hrest : afterSemicolon rest = rest := by
      cases rest with
      | nil => rfl
      | cons token rest => exact if_neg hsemicolon
    rw [hrest]
    refine reduce_then (q := 54) [] (yymove_command hsemicolon) rfl rfl rfl ?_
    exact reduce_then (q := 17) [_, _] rfl rfl rfl rfl (.refl _)

/-- **A statement is parsed, whatever follows** that does not continue it: its command comes first,
and an error comes after it if the input goes on. -/
theorem statement_parsed (fresh : ℕ → ParsedCondition) {tree : CommandTree} {rest : List Lexeme}
    (hwhole : tree.Whole) (hnext : tree.continues (sqlParser.lookahead rest) = false)
    (hshort : tree.lexemes.length + 4 < yymaxdepth) :
    yyparse fresh (tree.lexemes ++ rest) = some (statementResult tree rest) := by
  have hstatement : ∃ fresh', sqlParser.Reaches (yyinit fresh (tree.lexemes ++ rest))
      ⟨[(18, .command tree.command)], rest, ⟨fresh', []⟩⟩ :=
    tree.reaches (.inl rfl) hwhole hnext
  obtain ⟨fresh', hstatement⟩ := hstatement
  have hreaches := hstatement.trans (commands_reaches tree.command rest)
  have hlength : rest.length ≤ (afterSemicolon rest).length + 1 := by
    cases rest with
    | nil => exact Nat.zero_le _
    | cons token rest =>
      rw [afterSemicolon]
      split <;> simp
  have hshort : (tree.lexemes ++ rest).length + 3 <
      (afterSemicolon rest).length + yymaxdepth := by
    rw [List.length_append]
    omega
  unfold statementResult
  split
  · rename_i heof
    have hhalt : sqlParser.advance ⟨[(17, .command tree.command)], afterSemicolon rest,
        ⟨fresh', [tree.command]⟩⟩ = .error (.accepted ⟨fresh', [tree.command]⟩) := by
      simp only [advance, heof]
      rfl
    exact yyparse_of_reaches hreaches hhalt hshort
  · rename_i heof
    have hmove : sqlParser.move (sqlParser.state [(17, YyStype.command tree.command)])
        (sqlParser.lookahead (afterSemicolon rest)) = .error := yymove_commands heof
    have hhalt : sqlParser.advance ⟨[(17, .command tree.command)], afterSemicolon rest,
        ⟨fresh', [tree.command]⟩⟩ = .error (.rejected ⟨fresh', [tree.command]⟩) := by
      simp only [advance, hmove]
    exact yyparse_of_reaches hreaches hhalt hshort

end Miniob.Sql.Parser
