import Mathlib.Computability.Language
import Miniob.Sql.Parser.Where
import Miniob.Storage.Meta.TableMeta

/-!
# The grammar of the statements

* `Terminal`, `Nonterminal`: the kinds of symbols, in the order of their numbers.
* `Command`: what a statement is parsed into, with the structures that it fills.
* `YyStype`: the values of the symbols. A list is a pointer, which is null for an empty production.
* `rules`: the productions with their actions, in the order of their numbers.

The right recursive productions push the first element of a list last, and some rules reverse the
list then. An action that gets values of other symbols than its production has is not defined.
-/

namespace Miniob.Sql.Parser

open Miniob.Common Miniob.Storage.Meta

/-! ## Symbols -/

/-- Source: `yacc_sql.cpp`, `enum yysymbol_kind_t` -/
inductive Terminal
  | eof
  | error
  | undef
  | semicolon
  | create
  | drop
  | table
  | tables
  | index
  | select
  | desc
  | showToken
  | sync
  | insert
  | delete
  | update
  | lbrace
  | rbrace
  | comma
  | trxBegin
  | trxCommit
  | trxRollback
  | intT
  | stringT
  | floatT
  | help
  | exit
  | dot
  | into
  | values
  | fromToken
  | whereToken
  | and
  | setToken
  | on
  | load
  | data
  | infile
  | explain
  | eq
  | lt
  | gt
  | le
  | ge
  | ne
  | number
  | float
  | id
  | path
  | sss
  | star
  | stringV
  deriving DecidableEq

/-- Source: `yacc_sql.cpp`, `enum yysymbol_kind_t` -/
inductive Nonterminal
  | accept
  | commands
  | commandWrapper
  | exit
  | help
  | sync
  | begin
  | commit
  | rollback
  | dropTable
  | showTables
  | descTable
  | createIndex
  | dropIndex
  | createTable
  | attrDefList
  | attrDef
  | number
  | type
  | insert
  | valueList
  | value
  | delete
  | update
  | select
  | selectAttr
  | relAttr
  | attrList
  | relList
  | whereClause
  | conditionList
  | condition
  | compOp
  | loadData
  | explain
  | optSemicolon
  deriving DecidableEq

/-! ## Commands -/

/-- Source: `parse_defs.h`, `struct Inserts` -/
structure Inserts where
  /-- `relation_name` -/
  relationName : String
  /-- `values` -/
  values : List Value
  deriving DecidableEq

/-- Source: `parse_defs.h`, `struct Deletes` -/
structure Deletes where
  /-- `relation_name` -/
  relationName : String
  /-- `conditions` -/
  conditions : List Condition
  deriving DecidableEq

/-- Source: `parse_defs.h`, `struct Updates` -/
structure Updates where
  /-- `relation_name` -/
  relationName : String
  /-- `attribute_name` -/
  attributeName : String
  /-- `value` -/
  value : Value
  /-- `conditions` -/
  conditions : List Condition
  deriving DecidableEq

/-- Source: `parse_defs.h`, `struct CreateTable` -/
structure CreateTable where
  /-- `relation_name` -/
  relationName : String
  /-- `attr_infos` -/
  attrInfos : List AttrInfo
  deriving DecidableEq

/-- Source: `parse_defs.h`, `struct CreateIndex` -/
structure CreateIndex where
  /-- `index_name` -/
  indexName : String
  /-- `relation_name` -/
  relationName : String
  /-- `attribute_name` -/
  attributeName : String
  deriving DecidableEq

/-- Source: `parse_defs.h`, `struct DropIndex` -/
structure DropIndex where
  /-- `index_name` -/
  indexName : String
  /-- `relation_name` -/
  relationName : String
  deriving DecidableEq

/-- Source: `parse_defs.h`, `struct LoadData` -/
structure LoadData where
  /-- `relation_name` -/
  relationName : String
  /-- `file_name`, with its quotes. -/
  fileName : List Byte
  deriving DecidableEq

/-- A command by its flag, with the structure that belongs to the flag.
Source: `parse_defs.h`, `enum SqlCommandFlag`, `class Command` -/
inductive Command
  | error
  | select (selection : Selects)
  | insert (insertion : Inserts)
  | update (update : Updates)
  | delete (deletion : Deletes)
  | createTable (createTable : CreateTable)
  | dropTable (relationName : String)
  | createIndex (createIndex : CreateIndex)
  | dropIndex (dropIndex : DropIndex)
  | sync
  | showTables
  | descTable (relationName : String)
  | begin
  | commit
  | clogSync
  | rollback
  | loadData (loadData : LoadData)
  | help
  | exit
  | explain (cmd : Command)

/-! ## Values of symbols -/

/-- Source: `yacc_sql.y`, `%union` -/
inductive YyStype
  | command (command : Command)
  | condition (condition : ParsedCondition)
  | value (value : Value)
  | comp (comp : CompOp)
  | relAttr (relAttr : RelAttr)
  | attrInfos (attrInfos : Option (List AttrInfo))
  | attrInfo (attrInfo : AttrInfo)
  | valueList (valueList : Option (List Value))
  | conditionList (conditionList : ConditionListPtr)
  | relAttrList (relAttrList : Option (List RelAttr))
  | relationList (relationList : Option (List String))
  /-- `string`, a name. -/
  | string (name : String)
  /-- `string`, with its quotes. -/
  | text (text : List Byte)
  | number (number : Int)
  /-- `number`, as a type. -/
  | attrType (type : AttrType)
  | floats (floats : Float32)
  /-- A value that no action sets. -/
  | unset

/-- What the actions change besides the values. -/
structure Effects where
  /-- The memory of the conditions that will be made. -/
  fresh : ℕ → ParsedCondition
  /-- The commands of the `ParsedSqlResult`. -/
  commands : List Command

/-- An action. It is not defined for values of other kinds. -/
abbrev Action := List YyStype → Effects → Option (YyStype × Effects)

/-! ## Actions -/

/-- `$$ = $1`, which is a value of no meaning for an empty production. -/
def defaultAction : Action := fun vs e => some (vs.headD .unset, e)

/-- An action that yields the same value always. -/
def constAction (v : YyStype) : Action := fun _ e => some (v, e)

/-- An element is put at the end of a list that may not exist yet. -/
def emplaceBack {α : Type} (list : Option (List α)) (a : α) : Option (List α) :=
  some (list.getD [] ++ [a])

/-- `ParsedSqlResult::add_command` of the value of `command_wrapper`.
Source: `yacc_sql.y`, `commands`; `parse.cpp`, `ParsedSqlResult::add_command` -/
def addCommand : Action
  | [.command c, _], e => some (.command c, { e with commands := e.commands ++ [c] })
  | _, _ => none

/-- Source: `yacc_sql.y`, `drop_table` -/
def dropTableAction : Action
  | [_, _, .string name], e => some (.command (.dropTable name), e)
  | _, _ => none

/-- Source: `yacc_sql.y`, `desc_table` -/
def descTableAction : Action
  | [_, .string name], e => some (.command (.descTable name), e)
  | _, _ => none

/-- Source: `yacc_sql.y`, `create_index` -/
def createIndexAction : Action
  | [_, _, .string index, _, .string relation, _, .string attr, _], e =>
    some (.command (.createIndex ⟨index, relation, attr⟩), e)
  | _, _ => none

/-- Source: `yacc_sql.y`, `drop_index` -/
def dropIndexAction : Action
  | [_, _, .string index, _, .string relation], e =>
    some (.command (.dropIndex ⟨index, relation⟩), e)
  | _, _ => none

/-- Source: `yacc_sql.y`, `create_table` -/
def createTableAction : Action
  | [_, _, .string name, _, .attrInfo attr, .attrInfos attrs, _], e =>
    some (.command (.createTable ⟨name, (attrs.getD [] ++ [attr]).reverse⟩), e)
  | _, _ => none

/-- Source: `yacc_sql.y`, `attr_def_list` -/
def attrDefListAction : Action
  | [_, .attrInfo attr, .attrInfos attrs], e => some (.attrInfos (emplaceBack attrs attr), e)
  | _, _ => none

/-- A number as a `size_t`. -/
def toSizeT (n : Int) : ℕ := (n % 18446744073709551616).toNat

/-- Source: `yacc_sql.y`, `attr_def` -/
def attrDefAction : Action
  | [.string name, .attrType type, _, .number length, _], e =>
    some (.attrInfo { type := type, name := name, length := toSizeT length }, e)
  | [.string name, .attrType type], e =>
    some (.attrInfo { type := type, name := name, length := 4 }, e)
  | _, _ => none

/-- Source: `yacc_sql.y`, `insert` -/
def insertAction : Action
  | [_, _, .string relation, _, _, .value value, .valueList values, _], e =>
    some (.command (.insert ⟨relation, (values.getD [] ++ [value]).reverse⟩), e)
  | _, _ => none

/-- Source: `yacc_sql.y`, `value_list` -/
def valueListAction : Action
  | [_, .value value, .valueList values], e => some (.valueList (emplaceBack values value), e)
  | _, _ => none

/-- Source: `yacc_sql.y`, `value` -/
def valueAction : Action
  | [.number v], e => some (.value (.ints v), e)
  | [.floats v], e => some (.value (.floats v), e)
  | [.text text], e => some (.value (.chars (substr text 1 (text.length - 2))), e)
  | _, _ => none

/-- The conditions of a clause as their users read them. -/
def readConditions (conditions : ConditionListPtr) : List Condition :=
  (conditions.getD []).map ParsedCondition.read

/-- Source: `yacc_sql.y`, `delete` -/
def deleteAction : Action
  | [_, _, .string relation, .conditionList conditions], e =>
    some (.command (.delete ⟨relation, readConditions conditions⟩), e)
  | _, _ => none

/-- Source: `yacc_sql.y`, `update` -/
def updateAction : Action
  | [_, .string relation, _, .string attr, _, .value value, .conditionList conditions], e =>
    some (.command (.update ⟨relation, attr, value, readConditions conditions⟩), e)
  | _, _ => none

/-- Source: `yacc_sql.y`, `select` -/
def selectAction : Action
  | [_, .relAttrList attrs, _, .string relation, .relationList relations,
      .conditionList conditions], e =>
    some (.command (.select
      { attributes := attrs.getD []
        relations := (relations.getD [] ++ [relation]).reverse
        conditions := readConditions conditions
        relations_ne_nil := by simp }), e)
  | _, _ => none

/-- Source: `yacc_sql.y`, `select_attr` -/
def selectAttrAction : Action
  | [.relAttr attr, .relAttrList attrs], e => some (.relAttrList (emplaceBack attrs attr), e)
  | _, _ => none

/-- Source: `yacc_sql.y`, `rel_attr` -/
def relAttrAction : Action
  | [.string name], e => some (.relAttr { relationName := "", attributeName := name }, e)
  | [.string relation, _, .string name], e =>
    some (.relAttr { relationName := relation, attributeName := name }, e)
  | _, _ => none

/-- Source: `yacc_sql.y`, `attr_list` -/
def attrListAction : Action
  | [_, .relAttr attr, .relAttrList attrs], e => some (.relAttrList (emplaceBack attrs attr), e)
  | _, _ => none

/-- Source: `yacc_sql.y`, `rel_list` -/
def relListAction : Action
  | [_, .string relation, .relationList relations], e =>
    some (.relationList (emplaceBack relations relation), e)
  | _, _ => none

/-- `$$ = $2`. Source: `yacc_sql.y`, `where` -/
def whereAction : Action
  | [_, conditions], e => some (conditions, e)
  | _, _ => none

/-- The list of the tail is dereferenced. Source: `yacc_sql.y`, `condition_list` -/
def conditionListAction : Action
  | [.condition c], e => some (.conditionList (some [c]), e)
  | [.condition c, _, .conditionList (some conditions)], e =>
    some (.conditionList (some (conditions ++ [c])), e)
  | _, _ => none

/-- The members are set that the form has. The others are as the memory is.
Source: `yacc_sql.y`, `condition` -/
def conditionAction : Action := fun vs e =>
  let made (c : ParsedCondition) : Option (YyStype × Effects) :=
    some (.condition c, { e with fresh := fun n => e.fresh (n + 1) })
  let c := e.fresh 0
  match vs with
  | [.relAttr left, .comp comp, .value right] =>
    made { c with leftIsAttr := 1, leftAttr := left, rightIsAttr := 0, rightValue := right,
                  comp := comp }
  | [.value left, .comp comp, .value right] =>
    made { c with leftIsAttr := 0, leftValue := left, rightIsAttr := 0, rightValue := right,
                  comp := comp }
  | [.relAttr left, .comp comp, .relAttr right] =>
    made { c with leftIsAttr := 1, leftAttr := left, rightIsAttr := 1, rightAttr := right,
                  comp := comp }
  | [.value left, .comp comp, .relAttr right] =>
    made { c with leftIsAttr := 0, leftValue := left, rightIsAttr := 1, rightAttr := right,
                  comp := comp }
  | _ => none

/-- Source: `yacc_sql.y`, `load_data` -/
def loadDataAction : Action
  | [_, _, _, .text file, _, _, .string relation], e =>
    some (.command (.loadData ⟨relation, file⟩), e)
  | _, _ => none

/-- Source: `yacc_sql.y`, `explain` -/
def explainAction : Action
  | [_, .command c], e => some (.command (.explain c), e)
  | _, _ => none

/-! ## Productions -/

/-- A production with its action. -/
structure Production where
  /-- The nonterminal. -/
  lhs : Nonterminal
  /-- What it is replaced by. -/
  rhs : List (Symbol Terminal Nonterminal)
  /-- What computes its value. -/
  action : Action

open Symbol in
/-- The productions, the first of which has the number 1. Source: `yacc_sql.y` -/
def productions : List Production := [
  ⟨.accept, [nonterminal .commands, terminal .eof], defaultAction⟩,
  ⟨.commands, [nonterminal .commandWrapper, nonterminal .optSemicolon], addCommand⟩,
  ⟨.commandWrapper, [nonterminal .select], defaultAction⟩,
  ⟨.commandWrapper, [nonterminal .insert], defaultAction⟩,
  ⟨.commandWrapper, [nonterminal .update], defaultAction⟩,
  ⟨.commandWrapper, [nonterminal .delete], defaultAction⟩,
  ⟨.commandWrapper, [nonterminal .createTable], defaultAction⟩,
  ⟨.commandWrapper, [nonterminal .dropTable], defaultAction⟩,
  ⟨.commandWrapper, [nonterminal .showTables], defaultAction⟩,
  ⟨.commandWrapper, [nonterminal .descTable], defaultAction⟩,
  ⟨.commandWrapper, [nonterminal .createIndex], defaultAction⟩,
  ⟨.commandWrapper, [nonterminal .dropIndex], defaultAction⟩,
  ⟨.commandWrapper, [nonterminal .sync], defaultAction⟩,
  ⟨.commandWrapper, [nonterminal .begin], defaultAction⟩,
  ⟨.commandWrapper, [nonterminal .commit], defaultAction⟩,
  ⟨.commandWrapper, [nonterminal .rollback], defaultAction⟩,
  ⟨.commandWrapper, [nonterminal .loadData], defaultAction⟩,
  ⟨.commandWrapper, [nonterminal .explain], defaultAction⟩,
  ⟨.commandWrapper, [nonterminal .help], defaultAction⟩,
  ⟨.commandWrapper, [nonterminal .exit], defaultAction⟩,
  ⟨.exit, [terminal .exit], constAction (.command .exit)⟩,
  ⟨.help, [terminal .help], constAction (.command .help)⟩,
  ⟨.sync, [terminal .sync], constAction (.command .sync)⟩,
  ⟨.begin, [terminal .trxBegin], constAction (.command .begin)⟩,
  ⟨.commit, [terminal .trxCommit], constAction (.command .commit)⟩,
  ⟨.rollback, [terminal .trxRollback], constAction (.command .rollback)⟩,
  ⟨.dropTable, [terminal .drop, terminal .table, terminal .id], dropTableAction⟩,
  ⟨.showTables, [terminal .showToken, terminal .tables], constAction (.command .showTables)⟩,
  ⟨.descTable, [terminal .desc, terminal .id], descTableAction⟩,
  ⟨.createIndex, [terminal .create, terminal .index, terminal .id, terminal .on, terminal .id,
    terminal .lbrace, terminal .id, terminal .rbrace], createIndexAction⟩,
  ⟨.dropIndex, [terminal .drop, terminal .index, terminal .id, terminal .on, terminal .id],
    dropIndexAction⟩,
  ⟨.createTable, [terminal .create, terminal .table, terminal .id, terminal .lbrace,
    nonterminal .attrDef, nonterminal .attrDefList, terminal .rbrace], createTableAction⟩,
  ⟨.attrDefList, [], constAction (.attrInfos none)⟩,
  ⟨.attrDefList, [terminal .comma, nonterminal .attrDef, nonterminal .attrDefList],
    attrDefListAction⟩,
  ⟨.attrDef, [terminal .id, nonterminal .type, terminal .lbrace, nonterminal .number,
    terminal .rbrace], attrDefAction⟩,
  ⟨.attrDef, [terminal .id, nonterminal .type], attrDefAction⟩,
  ⟨.number, [terminal .number], defaultAction⟩,
  ⟨.type, [terminal .intT], constAction (.attrType .ints)⟩,
  ⟨.type, [terminal .stringT], constAction (.attrType .chars)⟩,
  ⟨.type, [terminal .floatT], constAction (.attrType .floats)⟩,
  ⟨.insert, [terminal .insert, terminal .into, terminal .id, terminal .values, terminal .lbrace,
    nonterminal .value, nonterminal .valueList, terminal .rbrace], insertAction⟩,
  ⟨.valueList, [], constAction (.valueList none)⟩,
  ⟨.valueList, [terminal .comma, nonterminal .value, nonterminal .valueList], valueListAction⟩,
  ⟨.value, [terminal .number], valueAction⟩,
  ⟨.value, [terminal .float], valueAction⟩,
  ⟨.value, [terminal .sss], valueAction⟩,
  ⟨.delete, [terminal .delete, terminal .fromToken, terminal .id, nonterminal .whereClause],
    deleteAction⟩,
  ⟨.update, [terminal .update, terminal .id, terminal .setToken, terminal .id, terminal .eq,
    nonterminal .value, nonterminal .whereClause], updateAction⟩,
  ⟨.select, [terminal .select, nonterminal .selectAttr, terminal .fromToken, terminal .id,
    nonterminal .relList, nonterminal .whereClause], selectAction⟩,
  ⟨.selectAttr, [terminal .star], constAction (.relAttrList (some [⟨"", "*"⟩]))⟩,
  ⟨.selectAttr, [nonterminal .relAttr, nonterminal .attrList], selectAttrAction⟩,
  ⟨.relAttr, [terminal .id], relAttrAction⟩,
  ⟨.relAttr, [terminal .id, terminal .dot, terminal .id], relAttrAction⟩,
  ⟨.attrList, [], constAction (.relAttrList none)⟩,
  ⟨.attrList, [terminal .comma, nonterminal .relAttr, nonterminal .attrList], attrListAction⟩,
  ⟨.relList, [], constAction (.relationList none)⟩,
  ⟨.relList, [terminal .comma, terminal .id, nonterminal .relList], relListAction⟩,
  ⟨.whereClause, [], constAction (.conditionList none)⟩,
  ⟨.whereClause, [terminal .whereToken, nonterminal .conditionList], whereAction⟩,
  ⟨.conditionList, [], constAction (.conditionList none)⟩,
  ⟨.conditionList, [nonterminal .condition], conditionListAction⟩,
  ⟨.conditionList, [nonterminal .condition, terminal .and, nonterminal .conditionList],
    conditionListAction⟩,
  ⟨.condition, [nonterminal .relAttr, nonterminal .compOp, nonterminal .value],
    conditionAction⟩,
  ⟨.condition, [nonterminal .value, nonterminal .compOp, nonterminal .value],
    conditionAction⟩,
  ⟨.condition, [nonterminal .relAttr, nonterminal .compOp, nonterminal .relAttr],
    conditionAction⟩,
  ⟨.condition, [nonterminal .value, nonterminal .compOp, nonterminal .relAttr],
    conditionAction⟩,
  ⟨.compOp, [terminal .eq], constAction (.comp .equalTo)⟩,
  ⟨.compOp, [terminal .lt], constAction (.comp .lessThan)⟩,
  ⟨.compOp, [terminal .gt], constAction (.comp .greatThan)⟩,
  ⟨.compOp, [terminal .le], constAction (.comp .lessEqual)⟩,
  ⟨.compOp, [terminal .ge], constAction (.comp .greatEqual)⟩,
  ⟨.compOp, [terminal .ne], constAction (.comp .notEqual)⟩,
  ⟨.loadData, [terminal .load, terminal .data, terminal .infile, terminal .sss, terminal .into,
    terminal .table, terminal .id], loadDataAction⟩,
  ⟨.explain, [terminal .explain, nonterminal .commandWrapper], explainAction⟩,
  ⟨.optSemicolon, [], defaultAction⟩,
  ⟨.optSemicolon, [terminal .semicolon], defaultAction⟩]

end Miniob.Sql.Parser
