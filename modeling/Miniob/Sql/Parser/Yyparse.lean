import Mathlib.Data.List.GetD
import Miniob.Lib.ShiftReduce
import Miniob.Sql.Parser.Grammar

/-!
# The parser of the statements

The tables of the generated parser, and the shift-reduce parser that they make.

* `yymove`, `yygoto`: what the tables say of a state. A state without an entry for the next token
  reduces by its default, so that an error is seen only when a token has to be shifted.
* `sqlParser`, `yyparse`: the parser of a list of tokens, which adds an error command when it fails.
* `certificate`, `weights`, `heights`: the tables belong to the grammar. A parse ends
  (`yyparse_ends`), and `yyparse_cases` says where.

No state shifts the token `error`, so that a parse ends with the first error.
-/

namespace Miniob.Sql.Parser

open Miniob.Lib Miniob.Lib.ShiftReduce

/-! ## Tables -/

/-- Source: `yacc_sql.cpp`, `YYFINAL` -/
def yyfinal : ℕ := 52

/-- Source: `yacc_sql.cpp`, `YYLAST` -/
def yylast : ℕ := 112

/-- Source: `yacc_sql.cpp`, `YYNTOKENS` -/
def yyntokens : ℕ := 52

/-- Source: `yacc_sql.cpp`, `YYNSTATES` -/
def yynstates : ℕ := 138

/-- Source: `yacc_sql.cpp`, `YYMAXDEPTH` -/
def yymaxdepth : ℕ := 10000

/-- Source: `yacc_sql.cpp`, `YYPACT_NINF` -/
def yypactNinf : Int := -85

/-- Source: `yacc_sql.cpp`, `yypact` -/
def yypact : List Int :=
  [10, 26, 46, -6, -37, 4, -85, -11, -12, -21, -85, -85, -85, -85, -85, 7, 10, 47, 43, -85, -85,
   -85, -85, -85, -85, -85, -85, -85, -85, -85, -85, -85, -85, -85, -85, -85, -85, 6, 8, 9, 12, 30,
   -85, 31, 42, -85, -85, 15, 16, 32, 29, -85, -85, -85, -85, 48, 33, -85, 34, 22, 23, 24, -85, 44,
   41, 28, 25, 35, 36, 37, -85, 58, 42, 61, -7, -85, 39, 51, 27, 62, 65, -85, 38, 41, -85, -33,
   -85, -85, -85, -36, -36, -85, 54, -33, 81, -85, -85, -85, 72, 35, 73, 45, 58, -85, 71, -85, -85,
   -85, -85, -85, -85, -7, -7, -7, 41, 49, 50, 62, -85, 74, -85, -33, 76, -85, -85, -85, -85, -85,
   -85, -85, -85, 77, -85, -85, 71, -85, -85, -85]

/-- Source: `yacc_sql.cpp`, `yydefact` -/
def yydefact : List ℕ :=
  [0, 0, 0, 0, 0, 0, 23, 0, 0, 0, 24, 25, 26, 22, 21, 0, 0, 0, 75, 20, 19, 13, 14, 15, 16, 8, 9,
   10, 11, 12, 7, 4, 6, 5, 3, 17, 18, 0, 0, 0, 0, 52, 50, 0, 54, 29, 28, 0, 0, 0, 0, 74, 1, 76, 2,
   0, 0, 27, 0, 0, 0, 0, 51, 0, 58, 0, 0, 0, 0, 0, 53, 56, 54, 0, 60, 47, 0, 0, 0, 33, 0, 31, 0,
   58, 55, 0, 44, 45, 46, 0, 0, 59, 61, 0, 0, 38, 39, 40, 36, 0, 0, 0, 56, 49, 42, 67, 68, 69, 70,
   71, 72, 0, 0, 60, 58, 0, 0, 33, 32, 0, 57, 0, 0, 64, 66, 63, 65, 62, 48, 73, 37, 0, 34, 30, 42,
   41, 35, 43]

/-- Source: `yacc_sql.cpp`, `yypgoto` -/
def yypgoto : List Int :=
  [-85, -85, 82, -85, -85, -85, -85, -85, -85, -85, -85, -85, -85, -85, -85, -20, 0, -85, -85, -85,
   -34, -84, -85, -85, -85, -85, -3, 40, -1, -81, -10, -85, 14, -85, -85, -85]

/-- Source: `yacc_sql.cpp`, `yydefgoto` -/
def yydefgoto : List Int :=
  [-1, 17, 18, 19, 20, 21, 22, 23, 24, 25, 26, 27, 28, 29, 30, 100, 79, 131, 98, 31, 122, 89, 32,
   33, 34, 43, 90, 62, 83, 75, 91, 92, 111, 35, 36, 54]

/-- Source: `yacc_sql.cpp`, `yytable` -/
def yytable : List ℕ :=
  [44, 104, 103, 105, 106, 107, 108, 109, 110, 114, 45, 46, 86, 87, 1, 2, 88, 47, 48, 3, 4, 5, 6,
   7, 8, 9, 49, 123, 125, 10, 11, 12, 37, 128, 38, 13, 14, 134, 86, 87, 41, 41, 88, 50, 42, 15, 53,
   52, 16, 95, 96, 97, 39, 55, 40, 56, 57, 59, 72, 58, 61, 60, 63, 64, 67, 65, 66, 68, 69, 70, 71,
   41, 74, 73, 77, 76, 82, 85, 93, 94, 99, 101, 78, 80, 81, 102, 113, 115, 116, 121, 118, 133, 119,
   135, 136, 130, 129, 132, 51, 117, 137, 120, 0, 127, 112, 0, 0, 0, 124, 126, 0, 0, 84]

/-- Source: `yacc_sql.cpp`, `yycheck` -/
def yycheck : List Int :=
  [3, 85, 83, 39, 40, 41, 42, 43, 44, 93, 47, 7, 45, 46, 4, 5, 49, 28, 30, 9, 10, 11, 12, 13, 14,
   15, 47, 111, 112, 19, 20, 21, 6, 114, 8, 25, 26, 121, 45, 46, 47, 47, 49, 36, 50, 35, 3, 0, 38,
   22, 23, 24, 6, 47, 8, 47, 47, 27, 61, 47, 18, 30, 47, 47, 16, 33, 37, 34, 34, 47, 47, 47, 31,
   29, 49, 47, 18, 16, 39, 28, 18, 16, 47, 47, 47, 47, 32, 6, 16, 18, 17, 17, 47, 17, 17, 45, 47,
   117, 16, 99, 134, 102, -1, 113, 90, -1, -1, -1, 111, 112, -1, -1, 72]

/-- Source: `yacc_sql.cpp`, `yystos` -/
def yystos : List ℕ :=
  [0, 4, 5, 9, 10, 11, 12, 13, 14, 15, 19, 20, 21, 25, 26, 35, 38, 53, 54, 55, 56, 57, 58, 59, 60,
   61, 62, 63, 64, 65, 66, 71, 74, 75, 76, 85, 86, 6, 8, 6, 8, 47, 50, 77, 78, 47, 7, 28, 30, 47,
   36, 54, 0, 3, 87, 47, 47, 47, 47, 27, 30, 18, 79, 47, 47, 33, 37, 16, 34, 34, 47, 47, 78, 29,
   31, 81, 47, 49, 47, 68, 47, 47, 18, 80, 79, 16, 45, 46, 49, 73, 78, 82, 83, 39, 28, 22, 23, 24,
   70, 18, 67, 16, 47, 81, 73, 39, 40, 41, 42, 43, 44, 84, 84, 32, 73, 6, 16, 68, 17, 47, 80, 18,
   72, 73, 78, 73, 78, 82, 81, 47, 45, 69, 67, 17, 73, 17, 17, 72]

/-- Source: `yacc_sql.cpp`, `yyr1` -/
def yyr1 : List ℕ :=
  [0, 52, 53, 54, 54, 54, 54, 54, 54, 54, 54, 54, 54, 54, 54, 54, 54, 54, 54, 54, 54, 55, 56, 57,
   58, 59, 60, 61, 62, 63, 64, 65, 66, 67, 67, 68, 68, 69, 70, 70, 70, 71, 72, 72, 73, 73, 73, 74,
   75, 76, 77, 77, 78, 78, 79, 79, 80, 80, 81, 81, 82, 82, 82, 83, 83, 83, 83, 84, 84, 84, 84, 84,
   84, 85, 86, 87, 87]

/-- Source: `yacc_sql.cpp`, `yyr2` -/
def yyr2 : List ℕ :=
  [0, 2, 2, 1, 1, 1, 1, 1, 1, 1, 1, 1, 1, 1, 1, 1, 1, 1, 1, 1, 1, 1, 1, 1, 1, 1, 1, 3, 2, 2, 8, 5,
   7, 0, 3, 5, 2, 1, 1, 1, 1, 8, 0, 3, 1, 1, 1, 4, 7, 6, 1, 2, 1, 3, 0, 3, 0, 3, 0, 2, 0, 1, 3, 3,
   3, 3, 3, 1, 1, 1, 1, 1, 1, 7, 2, 0, 1]

/-! ## The parser -/

/-- The default reduction of a state. Source: `yacc_sql.cpp`, `yydefault` of `yyparse` -/
def yydefault (s : ℕ) : Move ℕ ℕ :=
  match yydefact.getD s 0 with
  | 0 => .error
  | r => .reduce r

/-- What a state does with a token. The final state is entered by the end of the input.
Source: `yacc_sql.cpp`, `yysetstate`, `yybackup` of `yyparse` -/
def yymove (s : ℕ) (token : Terminal) : Move ℕ ℕ :=
  if s = yyfinal then .accept
  else
    let yyn := yypact.getD s yypactNinf
    if yyn = yypactNinf then yydefault s
    else
      let yyn := yyn + token.ctorIdx
      if yyn < 0 ∨ yylast < yyn ∨ yycheck.getD yyn.toNat (-1) ≠ token.ctorIdx then yydefault s
      else
        match yytable.getD yyn.toNat 0 with
        | 0 => .reduce 0
        | q => if q = yyfinal then .accept else .shift q

/-- The state after a reduction. Source: `yacc_sql.cpp`, `yyreduce` of `yyparse` -/
def yygoto (s : ℕ) (lhs : Nonterminal) : ℕ :=
  let yyi := yypgoto.getD lhs.ctorIdx 0 + s
  if 0 ≤ yyi ∧ yyi ≤ yylast ∧ yycheck.getD yyi.toNat (-1) = s then yytable.getD yyi.toNat 0
  else (yydefgoto.getD lhs.ctorIdx 0).toNat

/-- The production of a number. -/
def production (r : ℕ) : Option Production := if r = 0 then none else productions[r - 1]?

/-- The right-hand side of a rule. -/
def rhs (r : ℕ) : List (Symbol Terminal Nonterminal) := ((production r).map Production.rhs).getD []

/-- Source: `yacc_sql.cpp`, `yyparse` -/
def sqlParser : ShiftReduce ℕ Terminal Nonterminal ℕ YyStype Effects where
  start := 0
  move := yymove
  goto := yygoto
  lhs := fun r => Nonterminal.ofNat (yyr1.getD r 0 - yyntokens)
  length := fun r => yyr2.getD r 0
  action := fun r vs e => (production r).bind fun p => p.action vs e
  endMark := .eof
  limit := yymaxdepth

/-! ## The tables and the grammar -/

/-- The symbol of a number. -/
def symbolOf (n : ℕ) : Symbol Terminal Nonterminal :=
  if n < yyntokens then .terminal (.ofNat n) else .nonterminal (.ofNat (n - yyntokens))

/-- The states from which each state is entered. The final state is never entered. -/
def yyprev : List (List ℕ) :=
  [[], [0, 16], [0, 16], [0, 16], [0, 16], [0, 16], [0, 16], [0, 16], [0, 16], [0, 16], [0, 16],
   [0, 16], [0, 16], [0, 16], [0, 16], [0, 16], [0, 16], [0], [0], [0, 16], [0, 16], [0, 16],
   [0, 16], [0, 16], [0, 16], [0, 16], [0, 16], [0, 16], [0, 16], [0, 16], [0, 16], [0, 16],
   [0, 16], [0, 16], [0, 16], [0, 16], [0, 16], [1], [1], [2], [2], [3, 61, 74, 111, 112, 113],
   [3], [3], [3], [4], [5], [7], [8], [9], [15], [16], [], [18], [18], [37], [38], [39], [40],
   [41], [43], [44, 72], [44], [47], [48], [49], [50], [55], [56], [58], [59], [60], [61], [63],
   [64, 83, 114], [64], [65], [66], [67, 99], [67], [68], [69], [71, 102], [71], [72], [73],
   [74, 85, 93, 111, 112, 113, 121], [74, 85, 93, 111, 112, 113, 121],
   [74, 85, 93, 111, 112, 113, 121], [74, 113], [74, 113], [74], [74, 113], [76], [77], [78], [78],
   [78], [78], [79, 117], [79], [80], [82], [83], [85], [89, 90], [89, 90], [89, 90], [89, 90],
   [89, 90], [89, 90], [89], [90], [92], [93], [94], [98], [99], [100], [101], [102], [104, 134],
   [104], [111], [111], [112], [112], [113], [114], [115], [116], [116], [117], [119], [121],
   [122], [131], [134]]

/-- The symbols of the states and the states before them. -/
def sqlStates : Known ℕ Terminal Nonterminal where
  symbol := fun s => symbolOf (yystos.getD s 0)
  prev := fun s => yyprev.getD s []

/-- What is shifted is the symbol of the state that is entered. -/
def shiftChecked (s : ℕ) (token : Terminal) : Bool :=
  match yymove s token with
  | .shift q => decide (sqlStates.symbol q = .terminal token) && decide (s ∈ sqlStates.prev q)
  | _ => true

/-- What a default reduction pops is the right-hand side of its rule. -/
def reduceChecked (s : ℕ) : Bool :=
  match yydefault s with
  | .reduce r =>
    decide (sqlParser.length r = (rhs r).length) &&
      sqlStates.pops (sqlStates.entered sqlParser (sqlParser.lhs r)) (rhs r).reverse s
  | _ => true

theorem Terminal.ctorIdx_lt (token : Terminal) : token.ctorIdx < yyntokens := by
  cases token <;> decide

theorem Terminal.forall_of {p : Terminal → Prop} (h : ∀ i < yyntokens, p (.ofNat i))
    (token : Terminal) : p token := by
  rw [← Terminal.ofNat_ctorIdx token]
  exact h _ token.ctorIdx_lt

theorem shifts_checked : ∀ s < yynstates, yypact.getD s yypactNinf = yypactNinf ∨
    ∀ i < yyntokens, shiftChecked s (.ofNat i) = true := by
  decide +kernel

theorem reduces_checked : ∀ s < yynstates, s ≠ yyfinal → reduceChecked s = true := by
  decide +kernel

/-- The table says to shift wherever it says something. -/
theorem yytable_ne_zero : ∀ i ≤ yylast, yycheck.getD i (-1) ≠ -1 → yytable.getD i 0 ≠ 0 := by
  decide

theorem yydefault_cases {s r : ℕ} (h : yydefault s = .reduce r) :
    s < yynstates ∧ yydefact.getD s 0 = r := by
  unfold yydefault at h
  by_cases hs : s < yynstates
  · refine ⟨hs, ?_⟩
    split at h <;> cases h
    rfl
  · rw [List.getD_eq_default _ _ (Nat.not_lt.mp hs)] at h
    cases h

theorem yydefault_ne_shift {s q : ℕ} : yydefault s ≠ .shift q := by
  unfold yydefault
  split <;> rintro ⟨⟩

/-- A token is shifted by an entry of the table. -/
theorem yymove_shift {s q : ℕ} {token : Terminal} (h : yymove s token = .shift q) :
    s < yynstates ∧ yypact.getD s yypactNinf ≠ yypactNinf := by
  by_cases hs : s < yynstates
  · refine ⟨hs, fun hdefault => ?_⟩
    unfold yymove at h
    dsimp only at h
    rw [if_pos hdefault] at h
    split at h
    · cases h
    · exact yydefault_ne_shift h
  · exfalso
    unfold yymove at h
    have hpact : yypact.getD s yypactNinf = yypactNinf :=
      List.getD_eq_default _ _ (Nat.not_lt.mp hs)
    dsimp only at h
    rw [if_pos hpact] at h
    split at h
    · cases h
    · exact yydefault_ne_shift h

/-- Every reduction is the default one. -/
theorem yymove_reduce {s r : ℕ} {token : Terminal} (h : yymove s token = .reduce r) :
    s ≠ yyfinal ∧ yydefault s = .reduce r := by
  unfold yymove at h
  split at h
  · cases h
  · rename_i hfinal
    refine ⟨hfinal, ?_⟩
    dsimp only at h
    split at h
    · exact h
    · split at h
      · exact h
      · rename_i hentry
        push Not at hentry
        obtain ⟨hnonneg, hle, hcheck⟩ := hentry
        split at h
        · rename_i hzero
          refine absurd hzero (yytable_ne_zero _ (by omega) ?_)
          rw [hcheck]
          omega
        · split at h <;> cases h

/-- **The tables belong to the grammar.** -/
def certificate : Certificate sqlParser rhs where
  toKnown := sqlStates
  prev_start := rfl
  shift_spec := by
    intro s token q hmove
    obtain ⟨hs, hpact⟩ := yymove_shift hmove
    have hall := (shifts_checked s hs).resolve_left hpact
    have hchecked := Terminal.forall_of (p := fun token => shiftChecked s token = true) hall token
    unfold shiftChecked at hchecked
    have hmove : yymove s token = .shift q := hmove
    rw [hmove] at hchecked
    simpa using hchecked
  length_eq := by
    intro s token r hmove
    obtain ⟨hfinal, hdefault⟩ := yymove_reduce hmove
    have hchecked := reduces_checked s (yydefault_cases hdefault).1 hfinal
    unfold reduceChecked at hchecked
    rw [hdefault] at hchecked
    simp only [Bool.and_eq_true, decide_eq_true_eq] at hchecked
    exact hchecked.1
  reduce_spec := by
    intro s token r hmove
    obtain ⟨hfinal, hdefault⟩ := yymove_reduce hmove
    have hchecked := reduces_checked s (yydefault_cases hdefault).1 hfinal
    unfold reduceChecked at hchecked
    rw [hdefault] at hchecked
    simp only [Bool.and_eq_true, decide_eq_true_eq] at hchecked
    exact hchecked.2

/-! ## Ends and heights -/

/-- There is no production of another number. -/
theorem production_eq_none {r : ℕ} (h : 77 ≤ r) : production r = none := by
  rw [production, if_neg (by omega)]
  exact List.getElem?_eq_none (by simp only [productions, List.length_cons, List.length_nil]; omega)

/-- The weights of the symbols. A statement is lighter than a command, and a command lighter than a
parse. -/
def sqlWeight : Symbol Terminal Nonterminal → ℤ
  | .terminal _ => -4
  | .nonterminal n =>
    match n with
    | .accept | .commands => 4
    | .commandWrapper => 2
    | .selectAttr => 0
    | .attrDef | .number | .type | .value | .relAttr | .condition | .compOp => -2
    | _ => 1

/-- Every rule makes its symbols heavier. -/
theorem rules_heavier : ∀ r < 77,
    ((rhs r).map sqlWeight).sum + 1 ≤ sqlWeight (.nonterminal (sqlParser.lhs r)) := by
  decide

/-- A parse ends. -/
def weights : Weights certificate where
  weight := sqlWeight
  credit := 5
  bound := 4
  le_bound := by
    intro s
    cases s with
    | terminal token => exact (by decide : (-4 : ℤ) ≤ 4)
    | nonterminal n => cases n <;> decide
  terminal_spec := fun token => le_rfl
  rule_spec := by
    intro r
    by_cases hr : r < 77
    · exact rules_heavier r hr
    · have hlhs : yyr1.getD r 0 = 0 := List.getD_eq_default _ _ (Nat.not_lt.mp hr)
      rw [rhs, production_eq_none (Nat.not_lt.mp hr)]
      simp only [sqlParser, hlhs]
      decide

/-- The symbols that may yield nothing. -/
def sqlNullable : Symbol Terminal Nonterminal → Bool
  | .terminal _ => false
  | .nonterminal n =>
    match n with
    | .attrDefList | .valueList | .attrList | .relList | .whereClause | .conditionList
    | .optSemicolon => true
    | _ => false

/-- How many such symbols a stack can have below a state, with the state. -/
def sqlSlack (s : ℕ) : ℕ :=
  if s ∈ [91, 103, 127] then 2
  else if s ∈ [41, 54, 59, 62, 70, 74, 75, 83, 84, 86, 87, 88, 89, 90, 92, 100, 105, 106, 107, 108,
    109, 110, 111, 112, 113, 118, 120, 122, 123, 124, 125, 126, 128, 132, 135, 137] then 1
  else 0

theorem slack_checked : ∀ s < yynstates, ∀ p ∈ sqlStates.prev s,
    sqlSlack p + (sqlNullable (sqlStates.symbol s)).toNat ≤ sqlSlack s := by
  decide

theorem nullable_checked : ∀ r < 77, (production r).isSome = true →
    (rhs r).all sqlNullable = true → sqlNullable (.nonterminal (sqlParser.lhs r)) = true := by
  decide

/-- The stack is as high as the number of consumed tokens, or a little higher. -/
def heights : Heights certificate where
  nullable := sqlNullable
  slack := sqlSlack
  bound := 2
  le_bound := by
    intro s
    unfold sqlSlack
    split_ifs <;> decide
  rule_spec := by
    intro r us e haction hall
    have hsome : (production r).isSome = true := by
      cases hproduction : production r with
      | some p => rfl
      | none =>
        simp only [sqlParser, hproduction] at haction
        cases haction
    refine nullable_checked r ?_ hsome hall
    by_contra hr
    rw [production_eq_none (Nat.not_lt.mp hr)] at hsome
    cases hsome
  slack_spec := by
    intro s p hp
    by_cases hs : s < yynstates
    · exact slack_checked s hs p hp
    · have hprev : certificate.prev s = [] := List.getD_eq_default _ _ (Nat.not_lt.mp hs)
      rw [hprev] at hp
      cases hp

/-! ## Parses -/

/-- What `yyparse` returns, with the commands of the `ParsedSqlResult`. -/
structure YyResult where
  /-- Zero if the whole input is a statement. -/
  result : Int
  /-- The commands, an error last. -/
  commands : List Command

/-- This many steps are enough. -/
def yyfuel (tokens : List (Terminal × YyStype)) : ℕ := 5 * tokens.length + 4 * yymaxdepth + 2

/-- A parser that begins. -/
def yyinit (fresh : ℕ → ParsedCondition) (tokens : List (Terminal × YyStype)) :
    Config ℕ Terminal YyStype Effects :=
  ⟨[], tokens, ⟨fresh, []⟩⟩

/-- Source: `yacc_sql.cpp`, `yyacceptlab`, `yyabortlab`, `yyexhaustedlab` of `yyparse`;
`yacc_sql.y`, `yyerror` -/
def yyreturn : Halt Effects → Option YyResult
  | .accepted e => some ⟨0, e.commands⟩
  | .rejected e => some ⟨1, e.commands ++ [.error]⟩
  | .exhausted e => some ⟨2, e.commands ++ [.error]⟩
  | .crashed => none

/-- Nothing comes back if an action dereferences the null pointer. Source: `yacc_sql.cpp`,
`yyparse`; `yacc_sql.y`, `sql_parse` -/
def yyparse (fresh : ℕ → ParsedCondition) (tokens : List (Terminal × YyStype)) : Option YyResult :=
  match sqlParser.run (yyfuel tokens) (yyinit fresh tokens) with
  | .error halt => yyreturn halt
  | .ok _ => none

/-- **A parse ends.** -/
theorem yyparse_ends (fresh : ℕ → ParsedCondition) (tokens : List (Terminal × YyStype)) :
    ∃ halt, sqlParser.run (yyfuel tokens) (yyinit fresh tokens) = .error halt :=
  weights.run_fuel tokens ⟨fresh, []⟩

/-- It ends where the stack derives the tokens that are consumed. -/
theorem yyparse_cases (fresh : ℕ → ParsedCondition) (tokens : List (Terminal × YyStype)) :
    ∃ n c halt, sqlParser.run n (yyinit fresh tokens) = .ok c ∧
      Parsed certificate tokens ⟨fresh, []⟩ c ∧ sqlParser.step c = .error halt ∧
      yyparse fresh tokens = yyreturn halt := by
  obtain ⟨halt, hrun⟩ := yyparse_ends fresh tokens
  obtain ⟨n, c, hn, hparsed, hstep⟩ := run_error_parsed parsed_init hrun
  refine ⟨n, c, halt, hn, hparsed, hstep, ?_⟩
  rw [yyparse, hrun]

/-- A parse that consumes few tokens ends as it does without a limit. -/
theorem yyparse_of_reaches {fresh : ℕ → ParsedCondition} {tokens : List (Terminal × YyStype)}
    {c : Config ℕ Terminal YyStype Effects} {halt : Halt Effects}
    (hreaches : sqlParser.Reaches (yyinit fresh tokens) c)
    (hhalt : sqlParser.advance c = .error halt)
    (hshort : tokens.length + 3 < c.input.length + yymaxdepth) :
    yyparse fresh tokens = yyreturn halt := by
  obtain ⟨halt', hrun'⟩ := weights.run_fuel tokens ⟨fresh, []⟩
  obtain ⟨n, hrun⟩ := run_error_of_reaches heights parsed_init hreaches hhalt hshort
  have hrun' : sqlParser.run (yyfuel tokens) (yyinit fresh tokens) = .error halt' := hrun'
  rw [yyparse, hrun', run_error_inj hrun hrun']

end Miniob.Sql.Parser
