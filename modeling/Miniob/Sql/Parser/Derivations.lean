import Miniob.Sql.Parser.Statements

/-!
# What is parsed

The other direction: a command that the parser hands out is that of a statement.

* `Lexed`: a token has the value of its kind.
* `Means`: what the derivations of a nonterminal yield, by the tree of the derivation.
* `productions_mean`: every production keeps it, or ends in `AND` and has no value.
* `ParsedAs`, `parsed_statement`: what `yyparse` returns, for all tokens.
-/

namespace Miniob.Sql.Parser

open Miniob.Common Miniob.Storage.Meta
open Miniob.Lib Miniob.Lib.ShiftReduce

/-! ## Meanings -/

/-- The value that a token of the kind has. -/
def LexedValue (kind : Terminal) (v : YyStype) : Prop :=
  match kind with
  | .id => ∃ name, v = .string name
  | .number => ∃ n, v = .number n
  | .float => ∃ x, v = .floats x
  | .sss => ∃ quote body, v = .text (quote :: body ++ [quote])
  | _ => v = .unset

/-- A token as the lexer returns it. -/
def Lexed (token : Lexeme) : Prop := LexedValue token.1 token.2

/-- What a derivation of a statement yields. -/
def CommandMeans (w : List Lexeme) (v : YyStype) (e e' : Effects) : Prop :=
  ∃ tree : CommandTree, tree.Whole ∧ w = tree.lexemes ∧ v = .command tree.command ∧
    e'.commands = e.commands

/-- What a derivation of a list with commas yields. -/
def ListMeans {α β : Type} (lexemes : α → List Lexeme) (written : α → β)
    (listValue : Option (List β) → YyStype) (w : List Lexeme) (v : YyStype) (e e' : Effects) :
    Prop :=
  ∃ as : List α, w = commaList lexemes as ∧ v = listValue (emplaced (as.map written)) ∧ e' = e

/-- What a derivation of the nonterminal yields. -/
def Means (n : Nonterminal) (w : List Lexeme) (v : YyStype) (e e' : Effects) : Prop :=
  match n with
  | .accept => True
  | .commands => ∃ tree : CommandTree, tree.Whole ∧
      (w = tree.lexemes ∨ w = tree.lexemes ++ [plain .semicolon]) ∧
      e'.commands = e.commands ++ [tree.command]
  | .attrDefList => ListMeans AttrDefTree.lexemes AttrDefTree.written .attrInfos w v e e'
  | .attrDef => ∃ tree : AttrDefTree, w = tree.lexemes ∧ v = .attrInfo tree.written ∧ e' = e
  | .number => ∃ n, w = [integer n] ∧ v = .number n ∧ e' = e
  | .type => ∃ tree : TypeTree, w = [plain tree.token] ∧ v = .attrType tree.written ∧ e' = e
  | .valueList => ListMeans ValueTree.lexemes ValueTree.action .valueList w v e e'
  | .value => ∃ tree : ValueTree, w = tree.lexemes ∧ v = .value tree.action ∧ e' = e
  | .selectAttr => ∃ tree : SelectAttrTree, w = tree.lexemes ∧
      v = .relAttrList (some tree.pushed) ∧ e' = e
  | .relAttr => ∃ tree : RelAttrTree, w = tree.lexemes ∧ v = .relAttr tree.action ∧ e' = e
  | .attrList => ListMeans RelAttrTree.lexemes RelAttrTree.action .relAttrList w v e e'
  | .relList => ListMeans (fun name => [identifier name]) (fun name => name) .relationList w v e e'
  | .whereClause => ∃ (tree : WhereTree) (ptr : ConditionListPtr), w = tree.lexemes ∧
      tree.action e.fresh = some ptr ∧ v = .conditionList ptr ∧ e'.commands = e.commands
  | .conditionList => ∃ (tree : ConditionListTree) (ptr : ConditionListPtr), w = tree.lexemes ∧
      tree.action e.fresh = some ptr ∧ v = .conditionList ptr ∧ e'.commands = e.commands
  | .condition => ∃ tree : ConditionTree, w = tree.lexemes ∧
      v = .condition (tree.action (e.fresh 0)) ∧ e' = { e with fresh := fun n => e.fresh (n + 1) }
  | .compOp => ∃ tree : CompOpTree, w = [tree.token.lexeme] ∧ v = .comp tree.action ∧ e' = e
  | .optSemicolon => (w = [] ∨ w = [plain .semicolon]) ∧ e' = e
  | _ => CommandMeans w v e e'

/-- What derivations of symbols in a row yield. -/
def MeansAll : List (Symbol Terminal Nonterminal) → List Lexeme → List YyStype → Effects → Effects →
    Prop
  | [], w, vs, e, e' => w = [] ∧ vs = [] ∧ e' = e
  | .terminal t :: ss, w, vs, e, e' => ∃ v, LexedValue t v ∧ ∃ w' vs', w = (t, v) :: w' ∧
      vs = v :: vs' ∧ MeansAll ss w' vs' e e'
  | .nonterminal n :: ss, w, vs, e, e' => ∃ u v e₁, Means n u v e e₁ ∧ ∃ w' vs', w = u ++ w' ∧
      vs = v :: vs' ∧ MeansAll ss w' vs' e₁ e'

/-- The action of a production yields what its nonterminal means, or the null pointer is
dereferenced after an `AND`. -/
def Production.Means (p : Production) : Prop :=
  ∀ w vs e e₁, MeansAll p.rhs w vs e e₁ →
    (∃ v e', p.action vs e₁ = some (v, e') ∧ Parser.Means p.lhs w v e e') ∨
      p.action vs e₁ = none ∧ w.getLast? = some (plain .and)

/-! ## Productions -/

/-- A command is what a statement is. -/
theorem wrapper_means {n : Nonterminal} (h : Means n = CommandMeans) :
    (Production.mk .commandWrapper [.nonterminal n] defaultAction).Means := by
  rintro _ _ e e₁ ⟨u, v, e₂, hmeans, _, _, rfl, rfl, rfl, rfl, rfl⟩
  rw [h] at hmeans
  rw [List.append_nil]
  exact .inl ⟨v, _, rfl, hmeans⟩

/-- A statement that is one keyword. -/
theorem keyword_means {t : Terminal} {n : Nonterminal} (tree : CommandTree)
    (hvalue : LexedValue t = fun v => v = .unset) (hmeans : Means n = CommandMeans)
    (hwhole : tree.Whole) (hlexemes : tree.lexemes = [plain t]) :
    (Production.mk n [.terminal t] (constAction (.command tree.command))).Means := by
  rintro _ _ e e₁ ⟨v, hv, _, _, rfl, rfl, rfl, rfl, rfl⟩
  rw [hvalue] at hv
  subst hv
  refine .inl ⟨_, _, rfl, ?_⟩
  rw [hmeans]
  exact ⟨tree, hwhole, hlexemes.symm, rfl, rfl⟩

/-- The actions of a clause yield its conditions if it does not end in `AND`. -/
theorem WhereTree.whole_of_action {tree : WhereTree} {fresh : ℕ → ParsedCondition}
    {ptr : ConditionListPtr} (h : tree.action fresh = some ptr) :
    tree.tokens.getLast? ≠ some .and ∧ readConditions ptr = tree.pushed := by
  have hwhole : tree.tokens.getLast? ≠ some .and := by
    cases tree with
    | empty => simp [tokens]
    | clause conditions =>
      by_cases hempty : conditions = .empty
      · subst hempty
        simp [tokens, ConditionListTree.tokens]
      · rw [tokens, List.getLast?_cons_of_ne_nil (ConditionListTree.tokens_ne_nil hempty)]
        rcases conditions.action_cases hempty fresh with ⟨-, -, -, hand⟩ | ⟨haction, -⟩
        · exact hand
        · cases h.symm.trans haction
  obtain ⟨ptr', haction, hread⟩ := action_of_whole hwhole fresh
  cases h.symm.trans haction
  exact ⟨hwhole, hread⟩

/-- A list that is null is empty. -/
theorem ConditionListTree.eq_empty_of_action {tree : ConditionListTree}
    {fresh : ℕ → ParsedCondition} (h : tree.action fresh = some none) : tree = empty := by
  by_contra hempty
  rcases tree.action_cases hempty fresh with ⟨cs, haction, -⟩ | ⟨haction, -⟩ <;>
    cases h.symm.trans haction

/-- An empty production of a list. -/
theorem emptyList_means {α β : Type} {n : Nonterminal} {lexemes : α → List Lexeme}
    {written : α → β} {listValue : Option (List β) → YyStype}
    (h : Means n = ListMeans lexemes written listValue) :
    (Production.mk n [] (constAction (listValue none))).Means := by
  rintro _ _ e e₁ ⟨rfl, rfl, rfl⟩
  refine .inl ⟨_, _, rfl, ?_⟩
  rw [h]
  exact ⟨[], rfl, rfl, rfl⟩

/-- A production that puts an element before a list. -/
theorem list_means {α β : Type} {n element : Nonterminal} {lexemes : α → List Lexeme}
    (value : β → YyStype) {written : α → β} {listValue : Option (List β) → YyStype}
    {action : Action} (h : Means n = ListMeans lexemes written listValue)
    (helement : ∀ {w v e e'}, Means element w v e e' →
      ∃ a, w = lexemes a ∧ v = value (written a) ∧ e' = e)
    (haction : ∀ v b list e, action [v, value b, listValue list] e =
      some (listValue (emplaceBack list b), e)) :
    (Production.mk n [.terminal .comma, .nonterminal element, .nonterminal n] action).Means := by
  rintro _ _ e e₁ ⟨_, rfl, _, _, rfl, rfl, u, _, _, hmeans, _, _, rfl, rfl, w, _, _, htail, _, _,
    rfl, rfl, rfl, rfl, rfl⟩
  obtain ⟨a, rfl, rfl, rfl⟩ := helement hmeans
  rw [h] at htail
  obtain ⟨as, rfl, rfl, rfl⟩ := htail
  refine .inl ⟨_, _, haction _ _ _ _, ?_⟩
  rw [h]
  refine ⟨a :: as, ?_, rfl, rfl⟩
  rw [List.append_nil]
  rfl

theorem attrDefList_means : (Production.mk .attrDefList [.terminal .comma, .nonterminal .attrDef,
    .nonterminal .attrDefList] attrDefListAction).Means := by
  have hmeans : Means .attrDefList = ListMeans AttrDefTree.lexemes AttrDefTree.written .attrInfos :=
    rfl
  exact list_means .attrInfo hmeans (fun h => h) fun _ _ _ _ => rfl

theorem valueList_means : (Production.mk .valueList [.terminal .comma, .nonterminal .value,
    .nonterminal .valueList] valueListAction).Means := by
  have hmeans : Means .valueList = ListMeans ValueTree.lexemes ValueTree.action .valueList := rfl
  exact list_means .value hmeans (fun h => h) fun _ _ _ _ => rfl

theorem attrList_means : (Production.mk .attrList [.terminal .comma, .nonterminal .relAttr,
    .nonterminal .attrList] attrListAction).Means := by
  have hmeans : Means .attrList = ListMeans RelAttrTree.lexemes RelAttrTree.action .relAttrList :=
    rfl
  exact list_means .relAttr hmeans (fun h => h) fun _ _ _ _ => rfl

/-- A type. -/
theorem type_means {t : Terminal} (tree : TypeTree) (hvalue : LexedValue t = fun v => v = .unset)
    (htoken : tree.token = t) :
    (Production.mk .type [.terminal t] (constAction (.attrType tree.written))).Means := by
  rintro _ _ e e₁ ⟨v, hv, _, _, rfl, rfl, rfl, rfl, rfl⟩
  rw [hvalue] at hv
  subst hv htoken
  exact .inl ⟨_, _, rfl, tree, rfl, rfl, rfl⟩

/-- An operator. -/
theorem compOp_means {t : Terminal} (tree : CompOpTree)
    (hvalue : LexedValue t = fun v => v = .unset) (htoken : tree.token.lexeme = plain t) :
    (Production.mk .compOp [.terminal t] (constAction (.comp tree.action))).Means := by
  rintro _ _ e e₁ ⟨v, hv, _, _, rfl, rfl, rfl, rfl, rfl⟩
  rw [hvalue] at hv
  subst hv
  refine .inl ⟨_, _, rfl, tree, ?_, rfl, rfl⟩
  rw [htoken]
  rfl

theorem dropTable_means : (Production.mk .dropTable [.terminal .drop, .terminal .table, .terminal
    .id] dropTableAction).Means := by
  rintro _ _ e e₁ ⟨_, rfl, _, _, rfl, rfl, _, rfl, _, _, rfl, rfl, _, ⟨name, rfl⟩, _, _, rfl, rfl,
    rfl, rfl, rfl⟩
  exact .inl ⟨_, _, rfl, .dropTable name, trivial, rfl, rfl, rfl⟩

theorem showTables_means : (Production.mk .showTables [.terminal .showToken, .terminal .tables]
    (constAction (.command .showTables))).Means := by
  rintro _ _ e e₁ ⟨_, rfl, _, _, rfl, rfl, _, rfl, _, _, rfl, rfl, rfl, rfl, rfl⟩
  exact .inl ⟨_, _, rfl, .showTables, trivial, rfl, rfl, rfl⟩

theorem descTable_means : (Production.mk .descTable [.terminal .desc, .terminal .id]
    descTableAction).Means := by
  rintro _ _ e e₁ ⟨_, rfl, _, _, rfl, rfl, _, ⟨name, rfl⟩, _, _, rfl, rfl, rfl, rfl, rfl⟩
  exact .inl ⟨_, _, rfl, .descTable name, trivial, rfl, rfl, rfl⟩

theorem createIndex_means : (Production.mk .createIndex [.terminal .create, .terminal .index,
    .terminal .id, .terminal .on, .terminal .id, .terminal .lbrace, .terminal .id, .terminal
    .rbrace] createIndexAction).Means := by
  rintro _ _ e e₁ ⟨_, rfl, _, _, rfl, rfl, _, rfl, _, _, rfl, rfl, _, ⟨index, rfl⟩, _, _, rfl,
    rfl, _, rfl, _, _, rfl, rfl, _, ⟨relation, rfl⟩, _, _, rfl, rfl, _, rfl, _, _, rfl, rfl, _,
    ⟨attr, rfl⟩, _, _, rfl, rfl, _, rfl, _, _, rfl, rfl, rfl, rfl, rfl⟩
  exact .inl ⟨_, _, rfl, .createIndex index relation attr, trivial, rfl, rfl, rfl⟩

theorem dropIndex_means : (Production.mk .dropIndex [.terminal .drop, .terminal .index, .terminal
    .id, .terminal .on, .terminal .id] dropIndexAction).Means := by
  rintro _ _ e e₁ ⟨_, rfl, _, _, rfl, rfl, _, rfl, _, _, rfl, rfl, _, ⟨index, rfl⟩, _, _, rfl,
    rfl, _, rfl, _, _, rfl, rfl, _, ⟨relation, rfl⟩, _, _, rfl, rfl, rfl, rfl, rfl⟩
  exact .inl ⟨_, _, rfl, .dropIndex index relation, trivial, rfl, rfl, rfl⟩

theorem createTable_means : (Production.mk .createTable [.terminal .create, .terminal .table,
    .terminal .id, .terminal .lbrace, .nonterminal .attrDef, .nonterminal .attrDefList, .terminal
    .rbrace] createTableAction).Means := by
  rintro _ _ e e₁ ⟨_, rfl, _, _, rfl, rfl, _, rfl, _, _, rfl, rfl, _, ⟨relation, rfl⟩, _, _, rfl,
    rfl, _, rfl, _, _, rfl, rfl, _, _, _, ⟨attr, rfl, rfl, rfl⟩, _, _, rfl, rfl, _, _, _, ⟨attrs,
    rfl, rfl, rfl⟩, _, _, rfl, rfl, _, rfl, _, _, rfl, rfl, rfl, rfl, rfl⟩
  refine .inl ⟨_, _, rfl, .createTable relation attr attrs, trivial, rfl, ?_, rfl⟩
  rw [reverse_emplaced]
  rfl

theorem attrDef_sized_means : (Production.mk .attrDef [.terminal .id, .nonterminal .type, .terminal
    .lbrace, .nonterminal .number, .terminal .rbrace] attrDefAction).Means := by
  rintro _ _ e e₁ ⟨_, ⟨name, rfl⟩, _, _, rfl, rfl, _, _, _, ⟨type, rfl, rfl, rfl⟩, _, _, rfl, rfl,
    _, rfl, _, _, rfl, rfl, _, _, _, ⟨length, rfl, rfl, rfl⟩, _, _, rfl, rfl, _, rfl, _, _, rfl,
    rfl, rfl, rfl, rfl⟩
  exact .inl ⟨_, _, rfl, .sized name type length, rfl, rfl, rfl⟩

theorem attrDef_plain_means : (Production.mk .attrDef [.terminal .id, .nonterminal .type]
    attrDefAction).Means := by
  rintro _ _ e e₁ ⟨_, ⟨name, rfl⟩, _, _, rfl, rfl, _, _, _, ⟨type, rfl, rfl, rfl⟩, _, _, rfl, rfl,
    rfl, rfl, rfl⟩
  exact .inl ⟨_, _, rfl, .plain name type, rfl, rfl, rfl⟩

theorem number_means : (Production.mk .number [.terminal .number] defaultAction).Means := by
  rintro _ _ e e₁ ⟨_, ⟨n, rfl⟩, _, _, rfl, rfl, rfl, rfl, rfl⟩
  exact .inl ⟨_, _, rfl, n, rfl, rfl, rfl⟩

theorem insert_means : (Production.mk .insert [.terminal .insert, .terminal .into, .terminal .id,
    .terminal .values, .terminal .lbrace, .nonterminal .value, .nonterminal .valueList, .terminal
    .rbrace] insertAction).Means := by
  rintro _ _ e e₁ ⟨_, rfl, _, _, rfl, rfl, _, rfl, _, _, rfl, rfl, _, ⟨relation, rfl⟩, _, _, rfl,
    rfl, _, rfl, _, _, rfl, rfl, _, rfl, _, _, rfl, rfl, _, _, _, ⟨value, rfl, rfl, rfl⟩, _, _,
    rfl, rfl, _, _, _, ⟨values, rfl, rfl, rfl⟩, _, _, rfl, rfl, _, rfl, _, _, rfl, rfl, rfl, rfl,
    rfl⟩
  refine .inl ⟨_, _, rfl, .insert relation value values, trivial, rfl, ?_, rfl⟩
  rw [reverse_emplaced, ValueTree.map_action, value.action_eq]
  rfl

theorem value_number_means : (Production.mk .value [.terminal .number] valueAction).Means := by
  rintro _ _ e e₁ ⟨_, ⟨v, rfl⟩, _, _, rfl, rfl, rfl, rfl, rfl⟩
  exact .inl ⟨_, _, rfl, .number v, rfl, rfl, rfl⟩

theorem value_float_means : (Production.mk .value [.terminal .float] valueAction).Means := by
  rintro _ _ e e₁ ⟨_, ⟨v, rfl⟩, _, _, rfl, rfl, rfl, rfl, rfl⟩
  exact .inl ⟨_, _, rfl, .float v, rfl, rfl, rfl⟩

theorem value_sss_means : (Production.mk .value [.terminal .sss] valueAction).Means := by
  rintro _ _ e e₁ ⟨_, ⟨quote, body, rfl⟩, _, _, rfl, rfl, rfl, rfl, rfl⟩
  exact .inl ⟨_, _, rfl, .sss quote body, rfl, rfl, rfl⟩

theorem selectAttr_star_means : (Production.mk .selectAttr [.terminal .star] (constAction
    (.relAttrList (some [⟨"", "*"⟩])))).Means := by
  rintro _ _ e e₁ ⟨_, rfl, _, _, rfl, rfl, rfl, rfl, rfl⟩
  exact .inl ⟨_, _, rfl, .star, rfl, rfl, rfl⟩

theorem selectAttr_means : (Production.mk .selectAttr [.nonterminal .relAttr, .nonterminal
    .attrList] selectAttrAction).Means := by
  rintro _ _ e e₁ ⟨_, _, _, ⟨first, rfl, rfl, rfl⟩, _, _, rfl, rfl, _, _, _, ⟨rest, rfl, rfl,
    rfl⟩, _, _, rfl, rfl, rfl, rfl, rfl⟩
  refine .inl ⟨_, _, rfl, .attrs first rest, ?_, ?_, rfl⟩
  · rw [List.append_nil]
    rfl
  · rw [emplaceBack, ← pushed_eq_emplaced, RelAttrTree.map_action, first.action_eq]
    rfl

theorem relAttr_means : (Production.mk .relAttr [.terminal .id] relAttrAction).Means := by
  rintro _ _ e e₁ ⟨_, ⟨name, rfl⟩, _, _, rfl, rfl, rfl, rfl, rfl⟩
  exact .inl ⟨_, _, rfl, .id name, rfl, rfl, rfl⟩

theorem relAttr_dot_means : (Production.mk .relAttr [.terminal .id, .terminal .dot, .terminal .id]
    relAttrAction).Means := by
  rintro _ _ e e₁ ⟨_, ⟨relation, rfl⟩, _, _, rfl, rfl, _, rfl, _, _, rfl, rfl, _, ⟨name, rfl⟩, _,
    _, rfl, rfl, rfl, rfl, rfl⟩
  exact .inl ⟨_, _, rfl, .idDotId relation name, rfl, rfl, rfl⟩

theorem relList_means : (Production.mk .relList [.terminal .comma, .terminal .id, .nonterminal
    .relList] relListAction).Means := by
  rintro _ _ e e₁ ⟨_, rfl, _, _, rfl, rfl, _, ⟨name, rfl⟩, _, _, rfl, rfl, _, _, _, ⟨names, rfl,
    rfl, rfl⟩, _, _, rfl, rfl, rfl, rfl, rfl⟩
  refine .inl ⟨_, _, rfl, name :: names, ?_, rfl, rfl⟩
  rw [List.append_nil]
  rfl

theorem loadData_means : (Production.mk .loadData [.terminal .load, .terminal .data, .terminal
    .infile, .terminal .sss, .terminal .into, .terminal .table, .terminal .id]
    loadDataAction).Means := by
  rintro _ _ e e₁ ⟨_, rfl, _, _, rfl, rfl, _, rfl, _, _, rfl, rfl, _, rfl, _, _, rfl, rfl, _,
    ⟨quote, file, rfl⟩, _, _, rfl, rfl, _, rfl, _, _, rfl, rfl, _, rfl, _, _, rfl, rfl, _,
    ⟨relation, rfl⟩, _, _, rfl, rfl, rfl, rfl, rfl⟩
  exact .inl ⟨_, _, rfl, .loadData quote file relation, trivial, rfl, rfl, rfl⟩

theorem explain_means : (Production.mk .explain [.terminal .explain, .nonterminal .commandWrapper]
    explainAction).Means := by
  rintro _ _ e e₁ ⟨_, rfl, _, _, rfl, rfl, _, _, _, ⟨cmd, hwhole, rfl, rfl, hcommands⟩, _, _, rfl,
    rfl, rfl, rfl, rfl⟩
  refine .inl ⟨_, _, rfl, .explain cmd, hwhole, ?_, rfl, hcommands⟩
  rw [List.append_nil]
  rfl

theorem delete_means : (Production.mk .delete [.terminal .delete, .terminal .fromToken, .terminal
    .id, .nonterminal .whereClause] deleteAction).Means := by
  rintro _ _ e e₁ ⟨_, rfl, _, _, rfl, rfl, _, rfl, _, _, rfl, rfl, _, ⟨relation, rfl⟩, _, _, rfl,
    rfl, _, _, _, ⟨conditions, ptr, rfl, haction, rfl, hcommands⟩, _, _, rfl, rfl, rfl, rfl, rfl⟩
  obtain ⟨hwhole, hread⟩ := WhereTree.whole_of_action haction
  refine .inl ⟨_, _, rfl, .delete relation conditions, hwhole, ?_, ?_, hcommands⟩
  · rw [List.append_nil]
    rfl
  · rw [hread]
    rfl

theorem update_means : (Production.mk .update [.terminal .update, .terminal .id, .terminal
    .setToken, .terminal .id, .terminal .eq, .nonterminal .value, .nonterminal .whereClause]
    updateAction).Means := by
  rintro _ _ e e₁ ⟨_, rfl, _, _, rfl, rfl, _, ⟨relation, rfl⟩, _, _, rfl, rfl, _, rfl, _, _, rfl,
    rfl, _, ⟨attr, rfl⟩, _, _, rfl, rfl, _, rfl, _, _, rfl, rfl, _, _, _, ⟨value, rfl, rfl, rfl⟩,
    _, _, rfl, rfl, _, _, _, ⟨conditions, ptr, rfl, haction, rfl, hcommands⟩, _, _, rfl, rfl, rfl,
    rfl, rfl⟩
  obtain ⟨hwhole, hread⟩ := WhereTree.whole_of_action haction
  refine .inl ⟨_, _, rfl, .update relation attr value conditions, hwhole, ?_, ?_, hcommands⟩
  · rw [List.append_nil]
    rfl
  · rw [hread, value.action_eq]
    rfl

theorem select_means : (Production.mk .select [.terminal .select, .nonterminal .selectAttr,
    .terminal .fromToken, .terminal .id, .nonterminal .relList, .nonterminal .whereClause]
    selectAction).Means := by
  rintro _ _ e e₁ ⟨_, rfl, _, _, rfl, rfl, _, _, _, ⟨attrs, rfl, rfl, rfl⟩, _, _, rfl, rfl, _,
    rfl, _, _, rfl, rfl, _, ⟨relation, rfl⟩, _, _, rfl, rfl, _, _, _, ⟨relations, rfl, rfl, rfl⟩,
    _, _, rfl, rfl, _, _, _, ⟨conditions, ptr, rfl, haction, rfl, hcommands⟩, _, _, rfl, rfl, rfl,
    rfl, rfl⟩
  obtain ⟨hwhole, hread⟩ := WhereTree.whole_of_action haction
  refine .inl ⟨_, _, rfl, .select attrs relation relations conditions, hwhole, ?_, ?_, hcommands⟩
  · rw [List.append_nil]
    rfl
  · rw [CommandTree.command, ← hread]
    simp only [Miniob.Sql.select, relList, pushed_eq_emplaced, List.map_id', Option.getD_some]

theorem where_means : (Production.mk .whereClause [.terminal .whereToken, .nonterminal
    .conditionList] whereAction).Means := by
  rintro _ _ e e₁ ⟨_, rfl, _, _, rfl, rfl, _, _, _, ⟨conditions, ptr, rfl, haction, rfl,
    hcommands⟩, _, _, rfl, rfl, rfl, rfl, rfl⟩
  refine .inl ⟨_, _, rfl, .clause conditions, ptr, ?_, haction, rfl, hcommands⟩
  rw [List.append_nil]
  rfl

theorem conditionList_single_means : (Production.mk .conditionList [.nonterminal .condition]
    conditionListAction).Means := by
  rintro _ _ e e₁ ⟨_, _, _, ⟨condition, rfl, rfl, rfl⟩, _, _, rfl, rfl, rfl, rfl, rfl⟩
  refine .inl ⟨_, _, rfl, .single condition, some [condition.action (e.fresh 0)], ?_, rfl, rfl, rfl⟩
  rw [List.append_nil]
  rfl

/-- The list of the tail is null if the tail is empty. -/
theorem conditionList_means : (Production.mk .conditionList [.nonterminal .condition, .terminal
    .and, .nonterminal .conditionList] conditionListAction).Means := by
  rintro _ _ e e₁ ⟨_, _, _, ⟨condition, rfl, rfl, rfl⟩, _, _, rfl, rfl, _, rfl, _, _, rfl, rfl, _,
    _, _, ⟨rest, ptr, rfl, haction, rfl, hcommands⟩, _, _, rfl, rfl, rfl, rfl, rfl⟩
  have hlexemes : condition.lexemes ++ ((Terminal.and, YyStype.unset) :: (rest.lexemes ++ [])) =
      (ConditionListTree.andThen condition rest).lexemes := by
    simp [ConditionListTree.lexemes, ConditionListTree.tokens, ConditionTree.lexemes,
      Token.lexeme, plain]
  cases ptr with
  | some conditions =>
    refine .inl ⟨_, _, rfl, .andThen condition rest, _, hlexemes, ?_, rfl, hcommands⟩
    rw [ConditionListTree.action, haction]
    rfl
  | none =>
    refine .inr ⟨rfl, ?_⟩
    have hempty : rest = .empty := ConditionListTree.eq_empty_of_action haction
    subst hempty
    simp [ConditionListTree.lexemes, ConditionListTree.tokens, plain]

theorem condition_attr_value_means : (Production.mk .condition [.nonterminal .relAttr,
    .nonterminal .compOp, .nonterminal .value] conditionAction).Means := by
  rintro _ _ e e₁ ⟨_, _, _, ⟨left, rfl, rfl, rfl⟩, _, _, rfl, rfl, _, _, _, ⟨comp, rfl, rfl, rfl⟩,
    _, _, rfl, rfl, _, _, _, ⟨right, rfl, rfl, rfl⟩, _, _, rfl, rfl, rfl, rfl, rfl⟩
  refine .inl ⟨_, _, rfl, .attrValue left comp right, ?_, rfl, rfl⟩
  simp [ConditionTree.lexemes, ConditionTree.tokens, RelAttrTree.lexemes, ValueTree.lexemes]

theorem condition_value_value_means : (Production.mk .condition [.nonterminal .value,
    .nonterminal .compOp, .nonterminal .value] conditionAction).Means := by
  rintro _ _ e e₁ ⟨_, _, _, ⟨left, rfl, rfl, rfl⟩, _, _, rfl, rfl, _, _, _, ⟨comp, rfl, rfl, rfl⟩,
    _, _, rfl, rfl, _, _, _, ⟨right, rfl, rfl, rfl⟩, _, _, rfl, rfl, rfl, rfl, rfl⟩
  refine .inl ⟨_, _, rfl, .valueValue left comp right, ?_, rfl, rfl⟩
  simp [ConditionTree.lexemes, ConditionTree.tokens, ValueTree.lexemes]

theorem condition_attr_attr_means : (Production.mk .condition [.nonterminal .relAttr,
    .nonterminal .compOp, .nonterminal .relAttr] conditionAction).Means := by
  rintro _ _ e e₁ ⟨_, _, _, ⟨left, rfl, rfl, rfl⟩, _, _, rfl, rfl, _, _, _, ⟨comp, rfl, rfl, rfl⟩,
    _, _, rfl, rfl, _, _, _, ⟨right, rfl, rfl, rfl⟩, _, _, rfl, rfl, rfl, rfl, rfl⟩
  refine .inl ⟨_, _, rfl, .attrAttr left comp right, ?_, rfl, rfl⟩
  simp [ConditionTree.lexemes, ConditionTree.tokens, RelAttrTree.lexemes]

theorem condition_value_attr_means : (Production.mk .condition [.nonterminal .value,
    .nonterminal .compOp, .nonterminal .relAttr] conditionAction).Means := by
  rintro _ _ e e₁ ⟨_, _, _, ⟨left, rfl, rfl, rfl⟩, _, _, rfl, rfl, _, _, _, ⟨comp, rfl, rfl, rfl⟩,
    _, _, rfl, rfl, _, _, _, ⟨right, rfl, rfl, rfl⟩, _, _, rfl, rfl, rfl, rfl, rfl⟩
  refine .inl ⟨_, _, rfl, .valueAttr left comp right, ?_, rfl, rfl⟩
  simp [ConditionTree.lexemes, ConditionTree.tokens, RelAttrTree.lexemes, ValueTree.lexemes]

theorem commands_means : (Production.mk .commands [.nonterminal .commandWrapper,
    .nonterminal .optSemicolon] addCommand).Means := by
  rintro _ _ e e₁ ⟨_, _, _, ⟨tree, hwhole, rfl, rfl, hcommands⟩, _, _, rfl, rfl, _, _, _,
    ⟨hsemicolon, rfl⟩, _, _, rfl, rfl, rfl, rfl, rfl⟩
  refine .inl ⟨_, _, rfl, tree, hwhole, ?_, congrArg (· ++ [tree.command]) hcommands⟩
  rcases hsemicolon with rfl | rfl
  · exact .inl (List.append_nil _)
  · exact .inr rfl

theorem emptyWhere_means :
    (Production.mk .whereClause [] (constAction (.conditionList none))).Means := by
  rintro _ _ e e₁ ⟨rfl, rfl, rfl⟩
  exact .inl ⟨_, _, rfl, .empty, none, rfl, rfl, rfl, rfl⟩

theorem emptyConditionList_means :
    (Production.mk .conditionList [] (constAction (.conditionList none))).Means := by
  rintro _ _ e e₁ ⟨rfl, rfl, rfl⟩
  exact .inl ⟨_, _, rfl, .empty, none, rfl, rfl, rfl, rfl⟩

theorem emptySemicolon_means : (Production.mk .optSemicolon [] defaultAction).Means := by
  rintro _ _ e e₁ ⟨rfl, rfl, rfl⟩
  exact .inl ⟨_, _, rfl, .inl rfl, rfl⟩

theorem semicolon_means :
    (Production.mk .optSemicolon [.terminal .semicolon] defaultAction).Means := by
  rintro _ _ e e₁ ⟨_, rfl, _, _, rfl, rfl, rfl, rfl, rfl⟩
  exact .inl ⟨_, _, rfl, .inr rfl, rfl⟩

/-- **Every production keeps the meanings.** -/
theorem productions_mean : ∀ p ∈ productions, p.Means := by
  simp only [productions, List.forall_mem_cons, List.not_mem_nil, false_imp_iff, imp_true_iff,
    and_true]
  exact
    ⟨fun _ _ _ _ _ => .inl ⟨_, _, rfl, trivial⟩, commands_means, wrapper_means rfl,
      wrapper_means rfl, wrapper_means rfl, wrapper_means rfl, wrapper_means rfl,
      wrapper_means rfl,
      wrapper_means rfl, wrapper_means rfl, wrapper_means rfl, wrapper_means rfl,
      wrapper_means rfl, wrapper_means rfl, wrapper_means rfl, wrapper_means rfl,
      wrapper_means rfl, wrapper_means rfl, wrapper_means rfl, wrapper_means rfl,
      keyword_means .exit rfl rfl trivial rfl, keyword_means .help rfl rfl trivial rfl,
      keyword_means .sync rfl rfl trivial rfl, keyword_means .begin rfl rfl trivial rfl,
      keyword_means .commit rfl rfl trivial rfl, keyword_means .rollback rfl rfl trivial rfl,
      dropTable_means, showTables_means, descTable_means, createIndex_means, dropIndex_means,
      createTable_means, emptyList_means rfl, attrDefList_means,
      attrDef_sized_means, attrDef_plain_means, number_means, type_means .intT rfl rfl,
      type_means .stringT rfl rfl, type_means .floatT rfl rfl, insert_means, emptyList_means rfl,
      valueList_means, value_number_means, value_float_means,
      value_sss_means, delete_means, update_means, select_means, selectAttr_star_means,
      selectAttr_means, relAttr_means, relAttr_dot_means, emptyList_means rfl,
      attrList_means, emptyList_means rfl, relList_means,
      emptyWhere_means, where_means, emptyConditionList_means, conditionList_single_means,
      conditionList_means, condition_attr_value_means, condition_value_value_means,
      condition_attr_attr_means, condition_value_attr_means, compOp_means .eq rfl rfl,
      compOp_means .lt rfl rfl, compOp_means .gt rfl rfl, compOp_means .le rfl rfl,
      compOp_means .ge rfl rfl, compOp_means .ne rfl rfl, loadData_means, explain_means,
      emptySemicolon_means, semicolon_means⟩

/-! ## Derivations -/

theorem mem_productions {r : ℕ} {p : Production} (h : production r = some p) : p ∈ productions := by
  unfold production at h
  split at h
  · cases h
  · exact List.mem_of_getElem? h

theorem lhs_checked : ∀ r < 77, ∀ p ∈ production r, p.lhs = sqlParser.lhs r := by
  decide

theorem lhs_eq {r : ℕ} {p : Production} (h : production r = some p) : sqlParser.lhs r = p.lhs := by
  refine (lhs_checked r ?_ p h).symm
  by_contra hr
  rw [production_eq_none (Nat.not_lt.mp hr)] at h
  cases h

/-- What the action of a rule yields. -/
theorem rule_means {r : ℕ} {w : List Lexeme} {vs : List YyStype} {e e₁ : Effects}
    (hsome : (production r).isSome = true) (hbody : MeansAll (rhs r) w vs e e₁) :
    (∃ v e', sqlParser.action r vs e₁ = some (v, e') ∧ Means (sqlParser.lhs r) w v e e') ∨
      sqlParser.action r vs e₁ = none ∧ w.getLast? = some (plain .and) := by
  obtain ⟨p, hp⟩ := Option.isSome_iff_exists.mp hsome
  have hrhs : rhs r = p.rhs := by rw [rhs, hp]; rfl
  have haction : ∀ vs e, sqlParser.action r vs e = p.action vs e := fun vs e => by
    simp only [sqlParser, hp, Option.bind_some]
  rw [hrhs] at hbody
  rw [haction, lhs_eq hp]
  exact productions_mean p (mem_productions hp) _ _ _ _ hbody

/-- **Derivations yield what they mean.** By induction on the derivation. -/
theorem derives_mean {ss : List (Symbol Terminal Nonterminal)} {w : List Lexeme}
    {vs : List YyStype} {e e' : Effects} (hd : Derives sqlParser rhs ss w vs e e')
    (hlexed : ∀ token ∈ w, Lexed token) : MeansAll ss w vs e e' := by
  induction hd with
  | nil e => exact ⟨rfl, rfl, rfl⟩
  | token t v tail ih =>
    exact ⟨v, hlexed _ (List.mem_cons_self ..), _, _, rfl, rfl,
      ih fun token htoken => hlexed token (List.mem_cons_of_mem _ htoken)⟩
  | rule r body action tail hbody htail =>
    have hsome : (production r).isSome = true := by
      cases hproduction : production r with
      | some p => rfl
      | none =>
        simp only [sqlParser, hproduction] at action
        cases action
    have hbody := hbody fun token htoken => hlexed token (List.mem_append_left _ htoken)
    have htail := htail fun token htoken => hlexed token (List.mem_append_right _ htoken)
    rcases rule_means hsome hbody with ⟨v', e₃, haction, hmeans⟩ | ⟨hnone, -⟩
    · cases action.symm.trans haction
      exact ⟨_, _, _, hmeans, _, _, rfl, rfl, htail⟩
    · cases action.symm.trans hnone

/-! ## Stacks -/

theorem prev_checked : ∀ s < yynstates, 17 ∉ sqlStates.prev s := by
  decide

theorem symbol_checked : ∀ s < yynstates, sqlStates.symbol s ≠ .nonterminal .accept ∧
    (sqlStates.symbol s = .nonterminal .commands → s = 17) := by
  decide

theorem defaults_checked : ∀ s < yynstates, yydefact.getD s 0 ≠ 0 →
    (production (yydefact.getD s 0)).isSome = true := by
  decide

/-- Every reduction is by a production. -/
theorem production_of_default {s r : ℕ} (h : yydefault s = .reduce r) :
    (production r).isSome = true := by
  obtain ⟨hs, rfl⟩ := yydefault_cases h
  refine defaults_checked s hs fun hzero => ?_
  rw [yydefault, hzero] at h
  cases h

/-- No state is entered by `$accept`, and one by `commands`. -/
theorem symbol_cases (s : ℕ) : sqlStates.symbol s ≠ .nonterminal .accept ∧
    (sqlStates.symbol s = .nonterminal .commands → s = 17) := by
  by_cases hs : s < yynstates
  · exact symbol_checked s hs
  · have hstos : yystos.getD s 0 = 0 := List.getD_eq_default _ _ (Nat.not_lt.mp hs)
    have hsymbol : sqlStates.symbol s = .terminal .eof := by
      simp only [sqlStates, hstos]
      rfl
    rw [hsymbol]
    exact ⟨by simp, by simp⟩

theorem notMem_prev (s : ℕ) : 17 ∉ sqlStates.prev s := by
  by_cases hs : s < yynstates
  · exact prev_checked s hs
  · have hprev : sqlStates.prev s = [] := List.getD_eq_default _ _ (Nat.not_lt.mp hs)
    rw [hprev]
    exact List.not_mem_nil

/-- The commands are alone on the stack. -/
theorem stack_of_commands {stack : List (ℕ × YyStype)} (hpath : sqlStates.Path sqlParser stack)
    (hmem : .nonterminal .commands ∈ sqlStates.symbols stack) : ∃ v, stack = [(17, v)] := by
  induction stack with
  | nil => cases hmem
  | cons entry stack ih =>
    obtain ⟨hprev, hpath⟩ := hpath
    rw [Known.symbols_cons, List.mem_cons] at hmem
    rcases hmem with hmem | hmem
    · obtain ⟨s, v⟩ := entry
      obtain rfl := (symbol_cases s).2 hmem.symm
      cases stack with
      | nil => exact ⟨v, rfl⟩
      | cons entry' stack =>
        have hstart : entry'.1 = 0 := List.mem_singleton.mp hprev
        have hnil := hpath.1
        rw [hstart] at hnil
        cases hnil
    · obtain ⟨v, rfl⟩ := ih hpath hmem
      exact absurd hprev (notMem_prev entry.1)

/-- Symbols other than `commands` add no command. -/
theorem MeansAll.commands_eq {ss : List (Symbol Terminal Nonterminal)} {w : List Lexeme}
    {vs : List YyStype} {e e' : Effects} (h : MeansAll ss w vs e e')
    (haccept : .nonterminal .accept ∉ ss) (hcommands : .nonterminal .commands ∉ ss) :
    e'.commands = e.commands := by
  induction ss generalizing w vs e with
  | nil =>
    obtain ⟨-, -, rfl⟩ := h
    rfl
  | cons s ss ih =>
    rw [List.mem_cons, not_or] at haccept hcommands
    cases s with
    | terminal t =>
      obtain ⟨v, -, w', vs', -, -, htail⟩ := h
      exact ih htail haccept.2 hcommands.2
    | nonterminal n =>
      obtain ⟨u, v, e₁, hmeans, w', vs', -, -, htail⟩ := h
      rw [ih htail haccept.2 hcommands.2]
      cases n with
      | accept => exact absurd rfl haccept.1
      | commands => exact absurd rfl hcommands.1
      | attrDefList | valueList | attrList | relList =>
        obtain ⟨as, -, -, rfl⟩ := hmeans
        rfl
      | attrDef | number | type | value | selectAttr | relAttr | compOp | condition =>
        obtain ⟨tree, -, -, rfl⟩ := hmeans
        rfl
      | whereClause | conditionList =>
        obtain ⟨tree, ptr, -, -, -, hcommands⟩ := hmeans
        exact hcommands
      | optSemicolon =>
        obtain ⟨-, rfl⟩ := hmeans
        rfl
      | _ =>
        obtain ⟨tree, -, -, -, hcommands⟩ := hmeans
        exact hcommands

theorem yytable_final : ∀ i ≤ yylast, yytable.getD i 0 = yyfinal → i = 47 := by
  decide

theorem yypact_final : ∀ s < yynstates, yypact.getD s yypactNinf = 47 → s = 17 := by
  decide

/-- The input is accepted behind the commands. -/
theorem yymove_accept {s : ℕ} {token : Terminal} (h : yymove s token = .accept)
    (hfinal : s ≠ yyfinal) : s = 17 ∧ token = .eof := by
  unfold yymove at h
  rw [if_neg hfinal] at h
  dsimp only at h
  have hdefault : yydefault s ≠ .accept := by
    unfold yydefault
    split <;> rintro ⟨⟩
  split at h
  · exact absurd h hdefault
  · rename_i hpact
    split at h
    · exact absurd h hdefault
    · rename_i hentry
      push Not at hentry
      obtain ⟨hnonneg, hle, hcheck⟩ := hentry
      split at h
      · cases h
      · split at h
        · rename_i hq
          have hindex := yytable_final _ (by omega) hq
          rw [hindex] at hcheck
          have hzero : (0 : Int) = token.ctorIdx := hcheck
          have heof : token.ctorIdx = Terminal.eof.ctorIdx := by
            rw [show Terminal.eof.ctorIdx = 0 from rfl]
            omega
          have htoken : token = .eof := by
            rw [← Terminal.ofNat_ctorIdx token, heof, Terminal.ofNat_ctorIdx]
          refine ⟨yypact_final s ?_ (by omega), htoken⟩
          by_contra hs
          exact hpact (List.getD_eq_default _ _ (Nat.not_lt.mp hs))
        · cases h

/-- What is accepted is commands. -/
theorem commands_of_accept {stack : List (ℕ × YyStype)} {token : Terminal}
    (hpath : sqlStates.Path sqlParser stack)
    (hmove : yymove (sqlParser.state stack) token = .accept) :
    .nonterminal .commands ∈ sqlStates.symbols stack := by
  cases stack with
  | nil => exact absurd (yymove_accept hmove (by decide)).1 (by decide)
  | cons entry stack =>
    have hfinal : entry.1 ≠ yyfinal := by
      intro hfinal
      have hprev := hpath.1
      rw [hfinal] at hprev
      cases hprev
    have hstate : entry.1 = 17 := (yymove_accept hmove hfinal).1
    rw [Known.symbols_cons, hstate]
    exact List.mem_cons_self ..

/-- The end of the input, or a semicolon before it. -/
def Ends (rest : List Lexeme) : Prop :=
  sqlParser.lookahead rest = .eof ∨
    ∃ rest', rest = plain .semicolon :: rest' ∧ sqlParser.lookahead rest' = .eof

/-- The parse gets to an action that dereferences the null pointer, and the last token that it has
consumed is an `AND`. -/
def CrashesBehindAnd (fresh : ℕ → ParsedCondition) (tokens : List Lexeme) : Prop :=
  ∃ n c consumed, sqlParser.run n (yyinit fresh tokens) = .ok c ∧
    sqlParser.step c = .error .crashed ∧ tokens = consumed ++ c.input ∧
      consumed.getLast? = some (plain .and)

/-- What may be returned for the tokens. -/
inductive ParsedAs (fresh : ℕ → ParsedCondition) (tokens : List Lexeme) : Option YyResult → Prop
  /-- Nothing comes back from a parse that crashes. -/
  | crash (behind : CrashesBehindAnd fresh tokens) : ParsedAs fresh tokens none
  /-- There is an error, and no command. -/
  | error (result : Int) (ne_zero : result ≠ 0) : ParsedAs fresh tokens (some ⟨result, [.error]⟩)
  /-- The input is a statement. -/
  | whole (tree : CommandTree) (rest : List Lexeme) (whole : tree.Whole)
      (split : tokens = tree.lexemes ++ rest) (ends : Ends rest) :
      ParsedAs fresh tokens (some ⟨0, [tree.command]⟩)
  /-- The input begins with a statement, and an error comes after it. -/
  | front (tree : CommandTree) (rest : List Lexeme) (whole : tree.Whole)
      (split : tokens = tree.lexemes ++ rest) :
      ParsedAs fresh tokens (some ⟨1, [tree.command, .error]⟩)

/-- **What `yyparse` returns.** It crashes behind an `AND`, or it hands out an error alone, or the
command of a statement that the input begins with, alone if the input ends there. -/
theorem parsed_statement (fresh : ℕ → ParsedCondition) {tokens : List Lexeme}
    (hlexed : ∀ token ∈ tokens, Lexed token) : ParsedAs fresh tokens (yyparse fresh tokens) := by
  obtain ⟨n, c, halt, hrun, hparsed, hstep, hyyparse⟩ := yyparse_cases fresh tokens
  rw [hyyparse]
  obtain ⟨consumed, rfl, hderives⟩ := hparsed.derives
  have hmeans := derives_mean hderives fun token htoken =>
    hlexed token (List.mem_append_left _ htoken)
  by_cases hmem : .nonterminal .commands ∈ certificate.symbols c.stack
  · -- The commands are on the stack, and nothing else is.
    obtain ⟨v, hstack⟩ := stack_of_commands hparsed.path hmem
    obtain ⟨stack, input, env⟩ := c
    obtain rfl : stack = [(17, v)] := hstack
    obtain ⟨u, _, e₁, ⟨tree, hwhole, hlexemes, hcommands⟩, _, _, rfl, -, rfl, -, rfl⟩ := hmeans
    have hadvance : sqlParser.advance ⟨[(17, v)], input, env⟩ = .error halt := hstep
    have hcommands : env.commands = [tree.command] := hcommands
    have hrest : ∃ rest, u ++ [] ++ input = tree.lexemes ++ rest ∧
        (sqlParser.lookahead input = .eof → Ends rest) := by
      rw [List.append_nil]
      rcases hlexemes with rfl | rfl
      · exact ⟨input, rfl, .inl⟩
      · exact ⟨plain .semicolon :: input, List.append_assoc _ _ _,
          fun heof => .inr ⟨input, rfl, heof⟩⟩
    obtain ⟨rest, htokens, hends⟩ := hrest
    by_cases heof : sqlParser.lookahead input = .eof
    · have hhalt : sqlParser.advance ⟨[(17, v)], input, env⟩ = .error (.accepted env) := by
        simp only [advance, heof]
        rfl
      cases hadvance.symm.trans hhalt
      rw [yyreturn, hcommands]
      exact .whole tree rest hwhole htokens (hends heof)
    · have hmove :
          sqlParser.move (sqlParser.state [(17, v)]) (sqlParser.lookahead input) = .error :=
        yymove_commands heof
      have hhalt : sqlParser.advance ⟨[(17, v)], input, env⟩ = .error (.rejected env) := by
        simp only [advance, hmove]
      cases hadvance.symm.trans hhalt
      rw [yyreturn, hcommands]
      exact .front tree rest hwhole htokens
  · -- No command has been handed out.
    have hcommands : c.env.commands = [] := by
      refine hmeans.commands_eq (fun haccept => ?_) fun hmem' => hmem (List.mem_reverse.mp hmem')
      obtain ⟨entry, -, hentry⟩ := List.mem_map.mp (List.mem_reverse.mp haccept)
      exact (symbol_cases entry.1).1 hentry
    have hcrash := hstep
    unfold step at hstep
    split at hstep
    · cases hstep
      rw [yyreturn, hcommands]
      exact .error 2 (by decide)
    · rcases advance_error_cases hstep with ⟨hmove, rfl⟩ | rfl | ⟨r, hmove, haction, rfl⟩
      · exact absurd (commands_of_accept hparsed.path hmove) hmem
      · rw [yyreturn, hcommands]
        exact .error 1 (by decide)
      · obtain ⟨w₁, w₂, e₁, htokens, -, hbody⟩ := hparsed.split_reduced hmove
        have hbody := derives_mean hbody fun token htoken => hlexed token (by
          rw [htokens]
          exact List.mem_append_left _ (List.mem_append_right _ htoken))
        rcases rule_means (production_of_default (yymove_reduce hmove).2) hbody with
          ⟨v, e', hsome, -⟩ | ⟨-, hand⟩
        · cases haction.symm.trans hsome
        · refine .crash ⟨n, c, w₁ ++ w₂, hrun, hcrash, htokens, ?_⟩
          rw [List.getLast?_append, hand]
          rfl

end Miniob.Sql.Parser
