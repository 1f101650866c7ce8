import Miniob.Sql.Parser.Derivations
import Miniob.Sql.Parser.Lexer
import Miniob.Storage.Index.KeyComparator
import Miniob.Storage.Meta.MakeRecord

/-!
# The parse stage

The stage parses the text of a request and hands on the first command, whatever comes behind it.

* `lexed`: every token of a text has the value of its kind, and numbers are those of an `int`.
* `sqlParse`, `handleRequest`: the parse of a text, and what the stage makes of it.
* `text_parsed`: the text of a statement yields its command, whatever follows.
* `parsed_text`: what a text can yield. A command that is handed on is that of a statement that the
  text begins with.
* `parsed_columns`: the columns of a table that is created from a text.
-/

namespace Miniob.Sql.Parser

open Miniob.Common Miniob.Storage.Index Miniob.Storage.Meta
open Miniob.Lib Miniob.Lib.ShiftReduce

variable {atof : List Byte → Float32} {text : List Byte}

/-! ## The tokens of a text -/

theorem plain_lexed : ∀ t ∈ (firstSymbols ++ keywords ++ lastSymbols).map Prod.snd,
    Lexed (plain t) := by
  simp [firstSymbols, keywords, lastSymbols, Lexed, LexedValue, plain]

/-- What a rule makes of a text that it matches. -/
theorem rule_lexed {rule : LexRule} (hrule : rule ∈ rules atof) {w : List Byte}
    (hmatch : w ∈ rule.pattern.matches') {token : Lexeme} (haction : rule.action w = some token) :
    Lexed token := by
  simp only [rules, List.mem_append, List.mem_cons, List.not_mem_nil, or_false, List.mem_map]
    at hrule
  rcases hrule with ((((rfl | rfl | rfl | rfl) | ⟨s, hs, rfl⟩) | ⟨k, hk, rfl⟩) |
    (rfl | ⟨s, hs, rfl⟩)) | rfl | rfl | rfl
  · cases haction
  · cases haction
  · cases haction
    exact ⟨_, rfl⟩
  · cases haction
    exact ⟨_, rfl⟩
  · cases haction
    exact plain_lexed s.2 (List.mem_map_of_mem (List.mem_append_left _ (List.mem_append_left _ hs)))
  · cases haction
    exact plain_lexed k.2
      (List.mem_map_of_mem (List.mem_append_left _ (List.mem_append_right _ hk)))
  · cases haction
    exact ⟨_, rfl⟩
  · cases haction
    exact plain_lexed s.2 (List.mem_map_of_mem (List.mem_append_right _ hs))
  · cases haction
    obtain ⟨body, rfl, -⟩ := mem_stringRule.mp hmatch
    exact ⟨_, body, rfl⟩
  · cases haction
    obtain ⟨body, rfl, -⟩ := mem_stringRule.mp hmatch
    exact ⟨_, body, rfl⟩
  · cases haction
    split <;> rfl

/-- **Every token of a text** has the value of its kind. -/
theorem lexed : ∀ token ∈ lex atof text, Lexed token := by
  intro token htoken
  obtain ⟨rule, hrule, w, hmatch, haction⟩ := mem_scan htoken
  exact rule_lexed hrule hmatch haction

/-! ## The stage -/

/-- The text ends at the first zero. Source: `yacc_sql.y`, `sql_parse` -/
def sqlParse (atof : List Byte → Float32) (fresh : ℕ → ParsedCondition) (sql : List Byte) :
    Option YyResult :=
  yyparse fresh (lex atof (stringOf sql))

/-- The result that the stage sets when it hands on no command.
Source: `parse_stage.cpp`, `ParseStage::handle_request` -/
inductive ParseFailure
  /-- `SUCCESS` with no text -/
  | empty
  /-- `SQL_SYNTAX` with `Failed to parse sql` -/
  | sqlSyntax
  deriving DecidableEq

/-- The stage sets a result and returns `INTERNAL`, or it hands on the first command. Nothing comes
back if the parser crashes. Source: `parse_stage.cpp`, `ParseStage::handle_request`; `parse.cpp`,
`parse` -/
def handleRequest (atof : List Byte → Float32) (fresh : ℕ → ParsedCondition) (sql : List Byte) :
    Option (Except ParseFailure Command) :=
  (sqlParse atof fresh sql).map fun result =>
    match result.commands with
    | [] => .error .empty
    | .error :: _ => .error .sqlSyntax
    | cmd :: _ => .ok cmd

theorem CommandTree.command_ne_error (tree : CommandTree) : tree.command ≠ .error := by
  cases tree <;> simp [CommandTree.command]

/-- A command that is not an error is handed on. -/
theorem handleRequest_of_command {fresh : ℕ → ParsedCondition} {sql : List Byte} {r : Int}
    {tree : CommandTree} {commands : List Command}
    (h : sqlParse atof fresh sql = some ⟨r, tree.command :: commands⟩) :
    handleRequest atof fresh sql = some (.ok tree.command) := by
  rw [handleRequest, h, Option.map_some]
  have hne := tree.command_ne_error
  generalize tree.command = cmd at hne
  cases cmd with
  | error => exact absurd rfl hne
  | _ => rfl

/-- A text that is written for tokens is a layout of them, up to its end. -/
theorem layout_stringOf {print : Float32 → Option (List Byte)}
    (hprint : ∀ x u, print x = some u → IsFloat u ∧ atof u = x) {tokens : List Lexeme}
    {sql : List Byte} (h : writeTokens print tokens = some sql) :
    Layout atof tokens (stringOf sql) := by
  obtain ⟨hlayout, hzero⟩ := writeTokens_layout hprint h
  have hall : stringOf sql = sql := by
    refine List.takeWhile_eq_self_iff.mpr fun c hc => decide_eq_true ?_
    exact fun heq => hzero (heq ▸ hc)
  rw [hall]
  exact hlayout

/-- The text of a statement is parsed, whatever follows. -/
theorem sqlParse_of_layout (fresh : ℕ → ParsedCondition) {sql : List Byte} {tree : CommandTree}
    {rest : List Lexeme} (hlayout : Layout atof (tree.lexemes ++ rest) (stringOf sql))
    (hwhole : tree.Whole) (hnext : tree.continues (sqlParser.lookahead rest) = false)
    (hshort : tree.lexemes.length + 4 < yymaxdepth) :
    sqlParse atof fresh sql = some (statementResult tree rest) := by
  rw [sqlParse, lex_layout hlayout]
  exact statement_parsed fresh hwhole hnext hshort

/-- The command of a statement is handed on, whatever follows. -/
theorem handleRequest_of_result {fresh : ℕ → ParsedCondition} {sql : List Byte} {tree : CommandTree}
    {rest : List Lexeme} (h : sqlParse atof fresh sql = some (statementResult tree rest)) :
    handleRequest atof fresh sql = some (.ok tree.command) := by
  unfold statementResult at h
  split at h
  · exact handleRequest_of_command h
  · exact handleRequest_of_command h

/-- **The text of a statement yields its command**, whatever follows that does not continue the
statement. Nothing is said to the client of what follows. -/
theorem text_parsed (fresh : ℕ → ParsedCondition) {sql : List Byte} {tree : CommandTree}
    {rest : List Lexeme} (hlayout : Layout atof (tree.lexemes ++ rest) (stringOf sql))
    (hwhole : tree.Whole) (hnext : tree.continues (sqlParser.lookahead rest) = false)
    (hshort : tree.lexemes.length + 4 < yymaxdepth) :
    sqlParse atof fresh sql = some (statementResult tree rest) ∧
      handleRequest atof fresh sql = some (.ok tree.command) :=
  have hparse := sqlParse_of_layout fresh hlayout hwhole hnext hshort
  ⟨hparse, handleRequest_of_result hparse⟩

/-- `DELETE FROM t WERE id = 1` deletes every record of `t`, and the error behind it is not told. -/
theorem misspelt_where_text :
    sqlParse (fun _ => 0) (fun _ => zeroCondition) (bytesOf "DELETE FROM t WERE id = 1 ") =
        some ⟨1, [.delete ⟨"t", []⟩, .error]⟩ ∧
      handleRequest (fun _ => 0) (fun _ => zeroCondition) (bytesOf "DELETE FROM t WERE id = 1 ") =
        some (.ok (.delete ⟨"t", []⟩)) := by
  have hwrite : writeTokens (fun _ => none) ((CommandTree.delete "t" .empty).lexemes ++
      [identifier "WERE", identifier "id", plain .eq, integer 1]) =
        some (bytesOf "DELETE FROM t WERE id = 1 ") := by
    decide +kernel
  have hlayout : Layout (fun _ => 0) _ _ := layout_stringOf (by simp) hwrite
  exact text_parsed _ hlayout (by simp [CommandTree.Whole, WhereTree.tokens]) (by decide)
    (by decide)

theorem ConditionListTree.continues_eof (tree : ConditionListTree) :
    tree.continues .eof = false := by
  have hattr : ∀ attr : RelAttrTree, attr.continues .eof = false := by
    intro attr
    cases attr <;> rfl
  induction tree with
  | empty => rfl
  | single condition => cases condition <;> simp [continues, ConditionTree.continues, hattr]
  | andThen condition rest ih => exact ih

/-- A statement is not continued by the end of the input. -/
theorem CommandTree.continues_eof (tree : CommandTree) : tree.continues .eof = false := by
  have hwhere : ∀ conditions : WhereTree, conditions.continues .eof = false := by
    intro conditions
    cases conditions with
    | empty => rfl
    | clause conditions => exact conditions.continues_eof
  induction tree with
  | select attrs relation relations conditions =>
    cases conditions <;> simp [continues, hwhere]
  | update _ _ _ conditions => exact hwhere conditions
  | delete _ conditions => exact hwhere conditions
  | explain cmd ih => exact ih
  | _ => rfl

/-- **A statement is read as it is written.** -/
theorem written_parsed (fresh : ℕ → ParsedCondition) {print : Float32 → Option (List Byte)}
    (hprint : ∀ x u, print x = some u → IsFloat u ∧ atof u = x) {tree : CommandTree}
    {sql : List Byte} (hsql : writeTokens print tree.lexemes = some sql) (hwhole : tree.Whole)
    (hshort : tree.lexemes.length + 4 < yymaxdepth) :
    sqlParse atof fresh sql = some ⟨0, [tree.command]⟩ ∧
      handleRequest atof fresh sql = some (.ok tree.command) := by
  have hlayout := layout_stringOf hprint hsql
  rw [← List.append_nil tree.lexemes] at hlayout
  have hparse := sqlParse_of_layout fresh hlayout hwhole tree.continues_eof hshort
  exact ⟨hparse, handleRequest_of_result hparse⟩

/-- `INSERT INTO t VALUES (-7, 2)` -/
theorem insert_written :
    sqlParse (fun _ => 0) (fun _ => zeroCondition) (bytesOf "INSERT INTO t VALUES ( -7 , 2 ) ") =
        some ⟨0, [.insert ⟨"t", [.ints (-7), .ints 2]⟩]⟩ ∧
      handleRequest (fun _ => 0) (fun _ => zeroCondition)
        (bytesOf "INSERT INTO t VALUES ( -7 , 2 ) ") =
          some (.ok (.insert ⟨"t", [.ints (-7), .ints 2]⟩)) :=
  @written_parsed (fun _ => 0) (fun _ => zeroCondition) (fun _ => none) (by simp)
    (.insert "t" (.number (-7)) [.number 2]) (bytesOf "INSERT INTO t VALUES ( -7 , 2 ) ")
    (by decide +kernel) trivial (by decide)

/-- What the stage may make of the tokens. -/
inductive HandledAs (fresh : ℕ → ParsedCondition) (tokens : List Lexeme) :
    Option (Except ParseFailure Command) → Prop
  /-- Nothing comes back from a parse that crashes. -/
  | crash (behind : CrashesBehindAnd fresh tokens) : HandledAs fresh tokens none
  /-- The text does not begin with a statement. -/
  | failure : HandledAs fresh tokens (some (.error .sqlSyntax))
  /-- The text begins with a statement. -/
  | command (tree : CommandTree) (rest : List Lexeme) (whole : tree.Whole)
      (split : tokens = tree.lexemes ++ rest) : HandledAs fresh tokens (some (.ok tree.command))

/-- The stage makes of the tokens what the parser returns for them. -/
theorem handled_text (fresh : ℕ → ParsedCondition) (sql : List Byte) :
    HandledAs fresh (lex atof (stringOf sql)) (handleRequest atof fresh sql) := by
  have hparsed := parsed_statement fresh (@lexed atof (stringOf sql))
  generalize hresult : yyparse fresh (lex atof (stringOf sql)) = result at hparsed
  cases hparsed with
  | crash hbehind =>
    rw [handleRequest, sqlParse, hresult]
    exact .crash hbehind
  | error r _ =>
    rw [handleRequest, sqlParse, hresult]
    exact .failure
  | whole tree rest hwhole hsplit _ =>
    rw [handleRequest_of_command hresult]
    exact .command tree rest hwhole hsplit
  | front tree rest hwhole hsplit =>
    rw [handleRequest_of_command hresult]
    exact .command tree rest hwhole hsplit

/-- **What a text yields.** The parse ends. The parser crashes behind an `AND`, or the stage reports a
syntax error, or it hands on the command of a statement that the text begins with. -/
theorem parsed_text (fresh : ℕ → ParsedCondition) (sql : List Byte) :
    (∃ halt, sqlParser.run (yyfuel (lex atof (stringOf sql)))
      (yyinit fresh (lex atof (stringOf sql))) = .error halt) ∧
    ParsedAs fresh (lex atof (stringOf sql)) (sqlParse atof fresh sql) ∧
      HandledAs fresh (lex atof (stringOf sql)) (handleRequest atof fresh sql) :=
  ⟨yyparse_ends fresh _, parsed_statement fresh lexed, handled_text fresh sql⟩

/-- The statement of a command that is handed on. -/
theorem tree_of_command {fresh : ℕ → ParsedCondition} {sql : List Byte} {cmd : Command}
    (h : handleRequest atof fresh sql = some (.ok cmd)) :
    ∃ tree rest, CommandTree.Whole tree ∧ lex atof (stringOf sql) = tree.lexemes ++ rest ∧
      cmd = tree.command := by
  have hhandled := @handled_text atof fresh sql
  rw [h] at hhandled
  cases hhandled with
  | command tree rest hwhole hsplit => exact ⟨tree, rest, hwhole, hsplit, rfl⟩

/-! ## Columns -/

theorem plain_ne_integer {t : Terminal} {v : Int} : some (plain t) ≠ some (integer v) := by
  simp [plain, integer]

/-- A number of a text is one that an `int` can have. -/
theorem integer_fits {v : Int} (h : integer v ∈ lex atof text) : FitsInt v := by
  obtain ⟨rule, hrule, w, -, haction⟩ := mem_scan h
  simp only [rules, List.mem_append, List.mem_cons, List.not_mem_nil, or_false, List.mem_map]
    at hrule
  rcases hrule with ((((rfl | rfl | rfl | rfl) | ⟨s, hs, rfl⟩) | ⟨k, hk, rfl⟩) |
    (rfl | ⟨s, hs, rfl⟩)) | rfl | rfl | rfl
  · cases haction
  · cases haction
  · cases haction
    have hlow := Int.le_bmod (x := strtol w) (m := 4294967296) (by decide)
    have hhigh := Int.bmod_lt (x := strtol w) (m := 4294967296) (by decide)
    rw [FitsInt, atoi, wrap32]
    omega
  · cases haction
  · exact absurd haction plain_ne_integer
  · exact absurd haction plain_ne_integer
  · cases haction
  · exact absurd haction plain_ne_integer
  · cases haction
  · cases haction
  · exact absurd haction plain_ne_integer

theorem mem_commaList {α : Type} {lexemes : α → List Lexeme} {as : List α} {a : α} (ha : a ∈ as)
    {token : Lexeme} (htoken : token ∈ lexemes a) : token ∈ commaList lexemes as :=
  List.mem_flatMap.mpr ⟨a, ha, List.mem_cons_of_mem _ htoken⟩

/-- A column whose length is a number of the text is one of the grammar. -/
theorem AttrDefTree.fromNumber {attr : AttrDefTree}
    (h : ∀ v, integer v ∈ attr.lexemes → FitsInt v) : attr.written.FromNumber := by
  cases attr with
  | plain name type => exact AttrInfo.fromNumber_of_le (show 4 ≤ 2147483647 by decide)
  | sized name type length =>
    obtain ⟨hlow, hhigh⟩ := h length (by simp [AttrDefTree.lexemes])
    refine ⟨length, hlow, hhigh, ?_⟩
    rw [AttrDefTree.written, toSizeT]
    exact Int.toNat_of_nonneg (Int.emod_nonneg _ (by decide))

/-- The columns of a table that a text creates. -/
theorem createTable_fromNumber {relation : String} {attr : AttrDefTree} {attrs : List AttrDefTree}
    {rest : List Lexeme}
    (h : lex atof text = (CommandTree.createTable relation attr attrs).lexemes ++ rest) :
    ∀ a ∈ (attr :: attrs).map AttrDefTree.written, a.FromNumber := by
  intro a ha
  obtain ⟨tree, htree, rfl⟩ := List.mem_map.mp ha
  refine AttrDefTree.fromNumber fun v hv => @integer_fits atof text v ?_
  rw [h]
  refine List.mem_append_left _ ?_
  rw [CommandTree.lexemes]
  iterate 4 refine List.mem_cons_of_mem _ ?_
  rcases List.mem_cons.mp htree with rfl | htree
  · exact List.mem_append_left _ hv
  · exact List.mem_append_right _ (List.mem_append_left _ (mem_commaList htree hv))

/-- **The columns of a table that a text creates** are those that the text lists, one behind the
other in written order, and each has a byte at least. The size of a record is the sum of the lengths
if an `int` can have it, and negative otherwise. -/
theorem parsed_columns {fresh : ℕ → ParsedCondition} {sql : List Byte} {c : CreateTable}
    {m : TableMeta} (hsql : handleRequest atof fresh sql = some (.ok (.createTable c)))
    (hinit : TableMeta.init c.relationName c.attrInfos = .ok m) :
    ∃ relation attr attrs rest, lex atof (stringOf sql) =
        (CommandTree.createTable relation attr attrs).lexemes ++ rest ∧
      m.name = cStr relation ∧
      m.fields = sysFields ++ placeFields 4 ((attr :: attrs).map AttrDefTree.written) ∧
      (∀ a ∈ attr :: attrs, isBlank (cStr a.written.name) = false ∧ 0 < a.written.length ∧
        a.written.length ≤ 2147483647) ∧
      ((4 + totalLength ((attr :: attrs).map AttrDefTree.written) : Int) ≤ 2147483647 ∧
          m.recordSize = 4 + totalLength ((attr :: attrs).map AttrDefTree.written) ∨
        2147483647 < (4 + totalLength ((attr :: attrs).map AttrDefTree.written) : Int) ∧
          m.recordSize < 0) := by
  obtain ⟨tree, rest, -, hsplit, hcommand⟩ := tree_of_command hsql
  cases tree with
  | createTable relation attr attrs =>
    cases hcommand
    obtain ⟨-, -, fields, size, hfields, rfl⟩ := TableMeta.init_eq_ok hinit
    obtain ⟨rfl, hall, hsize⟩ :=
      TableMeta.initFields_spec (createTable_fromNumber hsplit) (by decide) (by decide) hfields
    refine ⟨relation, attr, attrs, rest, hsplit, rfl, rfl, fun a ha => ?_, hsize⟩
    obtain ⟨hname, -, hpos, hle⟩ := hall a.written (List.mem_map_of_mem ha)
    exact ⟨hname, hpos, hle⟩
  | _ => cases hcommand

/-- `CREATE TABLE t (a INT, b CHAR(3))` -/
def createTree : CommandTree :=
  .createTable "t" (.plain "a" .intT) [.sized "b" .stringT 3]

/-- The columns of `CREATE TABLE t (a INT, b CHAR(3))`. -/
theorem columns_of_text :
    ∃ relation attr attrs rest,
      lex (fun _ => 0) (stringOf (bytesOf "CREATE TABLE t ( a INT , b CHAR ( 3 ) ) ")) =
        (CommandTree.createTable relation attr attrs).lexemes ++ rest ∧
      pairMeta.name = cStr relation ∧
      pairMeta.fields = sysFields ++ placeFields 4 ((attr :: attrs).map AttrDefTree.written) ∧
      (∀ a ∈ attr :: attrs, isBlank (cStr a.written.name) = false ∧ 0 < a.written.length ∧
        a.written.length ≤ 2147483647) ∧
      ((4 + totalLength ((attr :: attrs).map AttrDefTree.written) : Int) ≤ 2147483647 ∧
          pairMeta.recordSize = 4 + totalLength ((attr :: attrs).map AttrDefTree.written) ∨
        2147483647 < (4 + totalLength ((attr :: attrs).map AttrDefTree.written) : Int) ∧
          pairMeta.recordSize < 0) := by
  have hwrite : writeTokens (fun _ => none) (createTree.lexemes ++ []) =
      some (bytesOf "CREATE TABLE t ( a INT , b CHAR ( 3 ) ) ") := by
    decide +kernel
  have hlayout : Layout (fun _ => 0) _ _ := layout_stringOf (by simp) hwrite
  have hparse := sqlParse_of_layout (fun _ => zeroCondition) hlayout trivial rfl (by decide)
  have hinit : TableMeta.init "t" [⟨.ints, "a", 4⟩, ⟨.chars, "b", 3⟩] = .ok pairMeta := by decide
  exact parsed_columns (handleRequest_of_result hparse) hinit

end Miniob.Sql.Parser
