import Mathlib.Data.Nat.Digits.Defs
import Miniob.Lib.MaximalMunch
import Miniob.Sql.Parser.Statements

/-!
# The lexer

The rules of the lexer in their order. White space and new lines yield no token, and a byte that no
other rule takes is a token of its own: an invalid one if it is ASCII, and the end of the input
otherwise, because its number is negative.

* `rules`, `lex`: the rules, and the tokens of a text.
* `follows`: the bytes that can go on with a text, by its first byte.
* `Spells`, `Layout`: the texts of a token, and the texts of tokens, with white space between them
  and with nothing between them where the next byte cannot go on with a token.
* `lex_layout`: the tokens of a layout are the ones that it lays out.
* `writeTokens`: a text of tokens. `writeTokens_layout` says that it is a layout of them.
-/

namespace Miniob.Sql.Parser

open Miniob.Common Miniob.Lib

/-! ## Bytes -/

/-- The byte of a character. -/
def byteOf (c : Char) : Byte := Fin.ofNat 256 c.toNat

/-- The bytes of a string. -/
def bytesOf (s : String) : List Byte := s.toList.map byteOf

/-- The bytes from the one to the other. -/
def byteRange (first last : ℕ) : List Byte :=
  (List.range' first (last + 1 - first)).map (Fin.ofNat 256)

/-- `[0-9]` -/
def digits : List Byte := byteRange 48 57

/-- `[A-Za-z_]` -/
def letters : List Byte := byteRange 65 90 ++ byteRange 97 122 ++ [95]

/-- `[A-Za-z0-9_]` -/
def wordBytes : List Byte := letters ++ digits

/-- `[\ \t\b\f]` -/
def whiteBytes : List Byte := [32, 9, 8, 12]

/-- `[^q]` -/
def bytesExcept (q : Byte) : List Byte := (List.finRange 256).filter (· ≠ q)

/-- A letter in upper case. -/
def upper (c : Byte) : Byte := if 97 ≤ c.val ∧ c.val ≤ 122 then c - 32 else c

/-- `"` -/
def doubleQuote : Byte := 34

/-- The quote that C puts around a character. -/
def singleQuote : Byte := 39

theorem mem_byteRange {first last : ℕ} (hlast : last < 256) {c : Byte} :
    c ∈ byteRange first last ↔ first ≤ c.val ∧ c.val ≤ last := by
  rw [byteRange, List.mem_map]
  constructor
  · rintro ⟨n, hn, rfl⟩
    rw [List.mem_range'_1] at hn
    have hval : (Fin.ofNat 256 n).val = n := Nat.mod_eq_of_lt (by omega)
    omega
  · rintro ⟨hfirst, hc⟩
    exact ⟨c.val, List.mem_range'_1.mpr (by omega), Fin.ext (Nat.mod_eq_of_lt c.isLt)⟩

theorem mem_digits {c : Byte} : c ∈ digits ↔ 48 ≤ c.val ∧ c.val ≤ 57 :=
  mem_byteRange (by decide)

theorem mem_letters {c : Byte} :
    c ∈ letters ↔ 65 ≤ c.val ∧ c.val ≤ 90 ∨ 97 ≤ c.val ∧ c.val ≤ 122 ∨ c.val = 95 := by
  simp only [letters, List.mem_append, mem_byteRange (show 90 < 256 by decide),
    mem_byteRange (show 122 < 256 by decide), List.mem_singleton, Fin.ext_iff, or_assoc]
  exact Iff.rfl

/-! ## Values -/

/-- The number that digits are. -/
def digitsValue (ds : List Byte) : ℕ := ds.foldl (fun v c => 10 * v + (c.val - 48)) 0

/-- `strtol` of digits with a sign, which stops at the ends of a `long`. -/
def strtol : List Byte → Int
  | [] => 0
  | c :: ds =>
    if c = byteOf '-' then max (-(digitsValue ds : Int)) (-9223372036854775808)
    else min (digitsValue (c :: ds) : Int) 9223372036854775807

/-- The low bits of the `long`. Source: `lex_sql.l`, `NUMBER` -/
def atoi (text : List Byte) : Int := wrap32 (strtol text)

/-- The characters of a text. -/
def nameOf (text : List Byte) : String := String.ofList (text.map fun c => Char.ofNat c.val)

/-! ## Rules -/

/-- A rule of the lexer. -/
abbrev LexRule := ScanRule Byte Lexeme

/-- Source: `lex_sql.l`, `WHITE_SAPCE` -/
def whiteRule : LexRule := ⟨oneOf whiteBytes, fun _ => none⟩

/-- Source: `lex_sql.l`, `\n` -/
def newlineRule : LexRule := ⟨oneOf [10], fun _ => none⟩

/-- `[\-]?{DIGIT}+` -/
def numberPattern : RegularExpression Byte :=
  optional (oneOf [byteOf '-']) * oneOrMore (oneOrMore (oneOf digits))

/-- Source: `lex_sql.l`, `NUMBER` -/
def numberRule : LexRule := ⟨numberPattern, fun text => some (integer (atoi text))⟩

/-- What `atof` of a text is as a `float` belongs to the library.
Source: `lex_sql.l`, `FLOAT` -/
def floatRule (atof : List Byte → Float32) : LexRule :=
  ⟨numberPattern * (oneOf [byteOf '.'] * oneOrMore (oneOrMore (oneOf digits))),
    fun text => some (.float, .floats (atof text))⟩

/-- The text itself. -/
def symbolRule (s : String × Terminal) : LexRule :=
  ⟨sequence ((bytesOf s.1).map fun c => [c]), fun _ => some (plain s.2)⟩

/-- The text, in upper and lower case. -/
def keywordRule (k : String × Terminal) : LexRule :=
  ⟨sequence (k.1.toList.map fun c => [byteOf c, byteOf c.toLower]), fun _ => some (plain k.2)⟩

/-- Source: `lex_sql.l`, `ID` -/
def idRule : LexRule :=
  ⟨oneOrMore (oneOf letters) * (oneOf wordBytes).star,
    fun text => some (identifier (nameOf text))⟩

/-- Source: `lex_sql.l`, `SSS` -/
def stringRule (quote : Byte) : LexRule :=
  ⟨oneOf [quote] * ((oneOf (bytesExcept quote)).star * oneOf [quote]),
    fun text => some (.sss, .text text)⟩

/-- The token is the byte, as a `char`. Source: `lex_sql.l`, `.` -/
def anyRule : LexRule :=
  ⟨oneOf (bytesExcept 10),
    fun text => some (plain (if text.all fun c => c.val < 128 then .undef else .eof))⟩

/-- Source: `lex_sql.l` -/
def firstSymbols : List (String × Terminal) := [(";", .semicolon), (".", .dot), ("*", .star)]

/-- Source: `lex_sql.l` -/
def keywords : List (String × Terminal) :=
  [("EXIT", .exit), ("HELP", .help), ("DESC", .desc), ("CREATE", .create), ("DROP", .drop),
    ("TABLE", .table), ("TABLES", .tables), ("INDEX", .index), ("ON", .on), ("SHOW", .showToken),
    ("SYNC", .sync), ("SELECT", .select), ("FROM", .fromToken), ("WHERE", .whereToken),
    ("AND", .and), ("INSERT", .insert), ("INTO", .into), ("VALUES", .values), ("DELETE", .delete),
    ("UPDATE", .update), ("SET", .setToken), ("BEGIN", .trxBegin), ("COMMIT", .trxCommit),
    ("ROLLBACK", .trxRollback), ("INT", .intT), ("CHAR", .stringT), ("FLOAT", .floatT),
    ("LOAD", .load), ("DATA", .data), ("INFILE", .infile), ("EXPLAIN", .explain)]

/-- Source: `lex_sql.l` -/
def lastSymbols : List (String × Terminal) :=
  [("(", .lbrace), (")", .rbrace), (",", .comma), ("=", .eq), ("<=", .le), ("<>", .ne),
    ("!=", .ne), ("<", .lt), (">=", .ge), (">", .gt)]

/-- The rules in their order. Source: `lex_sql.l` -/
def rules (atof : List Byte → Float32) : List LexRule :=
  [whiteRule, newlineRule, numberRule, floatRule atof] ++ firstSymbols.map symbolRule ++
    keywords.map keywordRule ++ idRule :: lastSymbols.map symbolRule ++
    [stringRule doubleQuote, stringRule singleQuote, anyRule]

/-- The tokens of a text. Source: `lex_sql.l` -/
def lex (atof : List Byte → Float32) (text : List Byte) : List Lexeme := scan (rules atof) text

/-! ## What the rules match -/

variable {w : List Byte} {atof : List Byte → Float32}

/-- Digits, perhaps with a sign. -/
def IsNumber (w : List Byte) : Prop :=
  ∃ sign ds, w = sign ++ ds ∧ (sign = [] ∨ sign = [byteOf '-']) ∧ ds ≠ [] ∧ ∀ c ∈ ds, c ∈ digits

theorem mem_numberPattern : w ∈ numberPattern.matches' ↔ IsNumber w := by
  have hmul : w ∈ numberPattern.matches' ↔
      ∃ sign ∈ (optional (oneOf [byteOf '-'])).matches',
        ∃ ds ∈ (oneOrMore (oneOrMore (oneOf digits))).matches', sign ++ ds = w := Iff.rfl
  rw [hmul]
  constructor
  · rintro ⟨sign, hsign, ds, hds, rfl⟩
    refine ⟨sign, ds, rfl, ?_, mem_oneOrMore_oneOrMore.mp hds⟩
    rcases mem_optional.mp hsign with rfl | hsign
    · exact .inl rfl
    · obtain ⟨c, hc, rfl⟩ := mem_oneOf.mp hsign
      rw [List.mem_singleton.mp hc]
      exact .inr rfl
  · rintro ⟨sign, ds, rfl, hsign, hds⟩
    refine ⟨sign, ?_, ds, mem_oneOrMore_oneOrMore.mpr hds, rfl⟩
    rcases hsign with rfl | rfl
    · exact mem_optional.mpr (.inl rfl)
    · exact mem_optional.mpr (.inr (mem_oneOf.mpr ⟨_, List.mem_singleton_self _, rfl⟩))

/-- A number, a dot and digits. -/
def IsFloat (w : List Byte) : Prop :=
  ∃ n ds, w = n ++ byteOf '.' :: ds ∧ IsNumber n ∧ ds ≠ [] ∧ ∀ c ∈ ds, c ∈ digits

theorem mem_floatRule : w ∈ (floatRule atof).pattern.matches' ↔ IsFloat w := by
  have hmul : w ∈ (floatRule atof).pattern.matches' ↔
      ∃ n ∈ numberPattern.matches', ∃ u ∈ (oneOf [byteOf '.'] *
        oneOrMore (oneOrMore (oneOf digits))).matches', n ++ u = w := Iff.rfl
  have hdot : ∀ u, u ∈ (oneOf [byteOf '.'] * oneOrMore (oneOrMore (oneOf digits))).matches' ↔
      ∃ d ∈ (oneOf [byteOf '.']).matches',
        ∃ ds ∈ (oneOrMore (oneOrMore (oneOf digits))).matches', d ++ ds = u := fun u => Iff.rfl
  rw [hmul]
  constructor
  · rintro ⟨n, hn, u, hu, rfl⟩
    obtain ⟨d, hd, ds, hds, rfl⟩ := (hdot u).mp hu
    obtain ⟨c, hc, rfl⟩ := mem_oneOf.mp hd
    rw [List.mem_singleton.mp hc]
    exact ⟨n, ds, rfl, mem_numberPattern.mp hn, mem_oneOrMore_oneOrMore.mp hds⟩
  · rintro ⟨n, ds, rfl, hn, hds⟩
    refine ⟨n, mem_numberPattern.mpr hn, _, (hdot _).mpr ⟨[byteOf '.'], ?_, ds,
      mem_oneOrMore_oneOrMore.mpr hds, rfl⟩, rfl⟩
    exact mem_oneOf.mpr ⟨_, List.mem_singleton_self _, rfl⟩

theorem mem_symbolRule {s : String × Terminal} :
    w ∈ (symbolRule s).pattern.matches' ↔ w = bytesOf s.1 := by
  rw [symbolRule, mem_sequence, List.forall₂_map_right_iff]
  simp only [List.mem_singleton]
  exact List.forall₂_eq_eq_eq ▸ Iff.rfl

/-- `[A-Z]` -/
def capitals : List Byte := byteRange 65 90

theorem keywords_capital : ∀ k ∈ keywords, ∀ c ∈ k.1.toList,
    byteOf c ∈ capitals ∧ byteOf c.toLower = byteOf c + 32 := by
  -- over the letters of the keyword, where a statement about every `Char` tries all of them
  have hall : ∀ k ∈ keywords, (k.1.toList.all fun c =>
      decide (byteOf c ∈ capitals ∧ byteOf c.toLower = byteOf c + 32)) = true := by
    decide
  exact fun k hk c hc => of_decide_eq_true (List.all_eq_true.mp (hall k hk) c hc)

theorem capitals_bounds : ∀ c ∈ capitals, 65 ≤ c.val ∧ c.val ≤ 90 :=
  fun _ => (mem_byteRange (by decide)).mp

theorem val_add_32 {c : Byte} (hc : c ∈ capitals) : (c + 32).val = c.val + 32 := by
  have hbounds := capitals_bounds c hc
  rw [Fin.val_add]
  exact Nat.mod_eq_of_lt (by change c.val + 32 < 256; omega)

theorem upper_eq_iff {c : Byte} (hc : c ∈ capitals) (b : Byte) :
    b = c ∨ b = c + 32 ↔ upper b = c := by
  have hbounds := capitals_bounds c hc
  rw [upper, Fin.ext_iff, Fin.ext_iff, val_add_32 hc]
  split
  · rename_i hlower
    have hsub : (b - 32).val = b.val - 32 := by
      change (256 - 32 + b.val) % 256 = b.val - 32
      omega
    rw [Fin.ext_iff, hsub]
    omega
  · rw [Fin.ext_iff]
    omega

/-- A keyword is written in upper and lower case. -/
theorem mem_keywordRule {k : String × Terminal} (hk : k ∈ keywords) :
    w ∈ (keywordRule k).pattern.matches' ↔ w.map upper = bytesOf k.1 := by
  rw [keywordRule, mem_sequence, List.forall₂_map_right_iff, bytesOf]
  have hall := keywords_capital k hk
  generalize k.1.toList = cs at hall
  induction cs generalizing w with
  | nil => simp
  | cons c cs ih =>
    rw [List.forall_mem_cons] at hall
    obtain ⟨⟨hcapital, hlower⟩, hall⟩ := hall
    have hbyte : ∀ b : Byte, b ∈ [byteOf c, byteOf c.toLower] ↔ upper b = byteOf c := by
      intro b
      rw [hlower, ← upper_eq_iff hcapital b]
      simp
    rw [List.forall₂_cons_right_iff, List.map_cons, List.map_eq_cons_iff]
    constructor
    · rintro ⟨b, m, hb, hm, rfl⟩
      exact ⟨b, m, rfl, (hbyte b).mp hb, (ih hall).mp hm⟩
    · rintro ⟨b, m, rfl, hb, hm⟩
      exact ⟨b, m, (hbyte b).mpr hb, (ih hall).mpr hm, rfl⟩

/-- A letter and letters and digits. -/
def IsWord (w : List Byte) : Prop :=
  ∃ c m, w = c :: m ∧ c ∈ letters ∧ ∀ x ∈ m, x ∈ wordBytes

theorem mem_idRule : w ∈ idRule.pattern.matches' ↔ IsWord w := by
  have hmul : w ∈ idRule.pattern.matches' ↔ ∃ a ∈ (oneOrMore (oneOf letters)).matches',
      ∃ b ∈ (oneOf wordBytes).star.matches', a ++ b = w := Iff.rfl
  rw [hmul]
  constructor
  · rintro ⟨a, ha, b, hb, rfl⟩
    obtain ⟨hne, ha⟩ := mem_oneOrMore_oneOf.mp ha
    obtain ⟨c, m, rfl⟩ := List.exists_cons_of_ne_nil hne
    rw [List.forall_mem_cons] at ha
    refine ⟨c, m ++ b, rfl, ha.1, fun x hx => ?_⟩
    rcases List.mem_append.mp hx with hx | hx
    · exact List.mem_append_left _ (ha.2 x hx)
    · exact mem_star_oneOf.mp hb x hx
  · rintro ⟨c, m, rfl, hc, hm⟩
    refine ⟨[c], mem_oneOrMore_oneOf.mpr ⟨by simp, by simpa using hc⟩, m, ?_, rfl⟩
    exact mem_star_oneOf.mpr hm

/-- A quote, other bytes and the quote. -/
def IsString (quote : Byte) (w : List Byte) : Prop :=
  ∃ body, w = quote :: body ++ [quote] ∧ quote ∉ body

theorem mem_stringRule {quote : Byte} :
    w ∈ (stringRule quote).pattern.matches' ↔ IsString quote w := by
  have hmul : w ∈ (stringRule quote).pattern.matches' ↔ ∃ a ∈ (oneOf [quote]).matches',
      ∃ u ∈ ((oneOf (bytesExcept quote)).star * oneOf [quote]).matches', a ++ u = w := Iff.rfl
  have hbody : ∀ u, u ∈ ((oneOf (bytesExcept quote)).star * oneOf [quote]).matches' ↔
      ∃ body ∈ (oneOf (bytesExcept quote)).star.matches', ∃ b ∈ (oneOf [quote]).matches',
        body ++ b = u := fun u => Iff.rfl
  have hquote : ∀ u, u ∈ (oneOf [quote]).matches' ↔ u = [quote] := fun u => by
    rw [mem_oneOf]
    simp
  have hexcept : ∀ body : List Byte, (∀ c ∈ body, c ∈ bytesExcept quote) ↔ quote ∉ body := by
    intro body
    simp only [bytesExcept, List.mem_filter, List.mem_finRange, true_and, decide_eq_true_eq]
    exact ⟨fun h hmem => h quote hmem rfl, fun h c hc heq => h (heq ▸ hc)⟩
  rw [hmul]
  constructor
  · rintro ⟨a, ha, u, hu, rfl⟩
    obtain ⟨body, hb, b, hb', rfl⟩ := (hbody u).mp hu
    rw [(hquote a).mp ha, (hquote b).mp hb']
    exact ⟨body, rfl, (hexcept body).mp (mem_star_oneOf.mp hb)⟩
  · rintro ⟨body, rfl, hb⟩
    refine ⟨[quote], (hquote _).mpr rfl, body ++ [quote],
      (hbody _).mpr ⟨body, ?_, [quote], ?_, rfl⟩, rfl⟩
    · exact mem_star_oneOf.mpr ((hexcept body).mpr hb)
    · exact (hquote _).mpr rfl

/-! ## The longest text -/

/-- The bytes that can go on with a text, by its first byte. -/
def follows (first c : Byte) : Bool :=
  if first ∈ letters then c ∈ wordBytes
  else if first ∈ byteOf '-' :: digits then c ∈ byteOf '.' :: digits
  else if first = byteOf '<' then c ∈ [byteOf '=', byteOf '>']
  else if first ∈ [byteOf '>', byteOf '!'] then c = byteOf '='
  else false

theorem follows_word {first c : Byte} (h : first ∈ letters) :
    follows first c = decide (c ∈ wordBytes) :=
  if_pos h

/-- A byte of no word and no symbol goes on with nothing. -/
theorem follows_eq_false {first c : Byte} (hword : c ∉ wordBytes)
    (hmark : c ∉ [byteOf '.', byteOf '=', byteOf '>']) : follows first c = false := by
  have hdigit : c ∉ digits := fun h => hword (List.mem_append_right _ h)
  simp only [List.mem_cons, List.not_mem_nil, or_false, not_or] at hmark
  unfold follows
  split_ifs <;> simp [hword, hdigit, hmark]

theorem digits_notMem : ∀ c ∈ byteOf '-' :: digits, c ∉ letters := by
  intro c hc
  rw [mem_letters]
  rcases List.mem_cons.mp hc with rfl | hc
  · decide
  · have hbounds := mem_digits.mp hc
    omega

theorem follows_number {first c : Byte} (h : first ∈ byteOf '-' :: digits) :
    follows first c = decide (c ∈ byteOf '.' :: digits) := by
  rw [follows, if_neg (digits_notMem first h), if_pos h]

theorem IsNumber.cons (h : IsNumber w) :
    ∃ c m, w = c :: m ∧ c ∈ byteOf '-' :: digits ∧ ∀ x ∈ m, x ∈ digits := by
  obtain ⟨sign, ds, rfl, rfl | rfl, hne, hds⟩ := h
  · obtain ⟨c, m, rfl⟩ := List.exists_cons_of_ne_nil hne
    rw [List.forall_mem_cons] at hds
    exact ⟨c, m, rfl, List.mem_cons_of_mem _ hds.1, hds.2⟩
  · exact ⟨_, ds, rfl, List.mem_cons_self .., hds⟩

theorem IsFloat.cons (h : IsFloat w) :
    ∃ c m, w = c :: m ∧ c ∈ byteOf '-' :: digits ∧ ∀ x ∈ m, x ∈ byteOf '.' :: digits := by
  obtain ⟨n, ds, rfl, hn, -, hds⟩ := h
  obtain ⟨c, m, rfl, hc, hm⟩ := hn.cons
  refine ⟨c, m ++ byteOf '.' :: ds, rfl, hc, fun x hx => ?_⟩
  rcases List.mem_append.mp hx with hx | hx
  · exact List.mem_cons_of_mem _ (hm x hx)
  · rcases List.mem_cons.mp hx with rfl | hx
    · exact List.mem_cons_self ..
    · exact List.mem_cons_of_mem _ (hds x hx)

theorem capitals_letters : ∀ c ∈ capitals, c ∈ letters ∧ c + 32 ∈ letters := by
  intro c hc
  have hbounds := capitals_bounds c hc
  rw [mem_letters, mem_letters, val_add_32 hc]
  omega

theorem keywords_ne_nil : ∀ k ∈ keywords, bytesOf k.1 ≠ [] := by
  decide

/-- A keyword is a word. -/
theorem isWord_of_keyword {k : String × Terminal} (hk : k ∈ keywords)
    (h : w.map upper = bytesOf k.1) : IsWord w := by
  have hletters : ∀ b ∈ w, b ∈ letters := by
    intro b hb
    have hmem : upper b ∈ bytesOf k.1 := h ▸ List.mem_map_of_mem hb
    obtain ⟨c, hc, heq⟩ := List.mem_map.mp hmem
    have hcapital := (keywords_capital k hk c hc).1
    rcases (upper_eq_iff hcapital b).mpr heq.symm with rfl | rfl
    · exact (capitals_letters _ hcapital).1
    · exact (capitals_letters _ hcapital).2
  have hne : w ≠ [] := fun hnil => keywords_ne_nil k hk (by rw [← h, hnil]; rfl)
  obtain ⟨c, m, rfl⟩ := List.exists_cons_of_ne_nil hne
  rw [List.forall_mem_cons] at hletters
  exact ⟨c, m, rfl, hletters.1, fun x hx => List.mem_append_left _ (hletters.2 x hx)⟩

/-- The first byte and the ones that follow it. -/
def Followed (w : List Byte) : Prop := ∀ c m, w = c :: m → ∀ x ∈ m, follows c x = true

theorem IsWord.followed (h : IsWord w) : Followed w := by
  obtain ⟨c, m, rfl, hc, hm⟩ := h
  rintro _ _ ⟨⟩ x hx
  rw [follows_word hc]
  exact decide_eq_true (hm x hx)

theorem IsNumber.followed (h : IsNumber w) : Followed w := by
  obtain ⟨c, m, rfl, hc, hm⟩ := h.cons
  rintro _ _ ⟨⟩ x hx
  rw [follows_number hc]
  exact decide_eq_true (List.mem_cons_of_mem _ (hm x hx))

theorem IsFloat.followed (h : IsFloat w) : Followed w := by
  obtain ⟨c, m, rfl, hc, hm⟩ := h.cons
  rintro _ _ ⟨⟩ x hx
  rw [follows_number hc]
  exact decide_eq_true (hm x hx)

/-- A text of one byte. -/
theorem followed_of_mem_oneOf {cs : List Byte} (h : w ∈ (oneOf cs).matches') : Followed w := by
  obtain ⟨c, -, rfl⟩ := mem_oneOf.mp h
  rintro _ _ ⟨⟩ x hx
  cases hx

theorem symbols_followed : ∀ s ∈ firstSymbols ++ lastSymbols, ∀ x ∈ (bytesOf s.1).tail,
    ∀ c ∈ (bytesOf s.1).head?, follows c x = true := by
  decide +kernel

/-- What a rule matches is a string, or its bytes follow the first one. -/
theorem rules_followed {rule : LexRule} (hrule : rule ∈ rules atof)
    (hmatch : w ∈ rule.pattern.matches') :
    Followed w ∨ IsString doubleQuote w ∨ IsString singleQuote w := by
  have hsymbol : ∀ s ∈ firstSymbols ++ lastSymbols, w = bytesOf s.1 → Followed w := by
    rintro s hs rfl c m heq x hx
    refine symbols_followed s hs x ?_ c ?_
    · rw [heq]
      exact hx
    · rw [heq]
      rfl
  simp only [rules, List.mem_append, List.mem_cons, List.not_mem_nil, or_false, List.mem_map]
    at hrule
  rcases hrule with ((((rfl | rfl | rfl | rfl) | ⟨s, hs, rfl⟩) | ⟨k, hk, rfl⟩) |
    (rfl | ⟨s, hs, rfl⟩)) | rfl | rfl | rfl
  · exact .inl (followed_of_mem_oneOf hmatch)
  · exact .inl (followed_of_mem_oneOf hmatch)
  · exact .inl (mem_numberPattern.mp hmatch).followed
  · exact .inl (mem_floatRule.mp hmatch).followed
  · exact .inl (hsymbol s (List.mem_append_left _ hs) (mem_symbolRule.mp hmatch))
  · exact .inl (isWord_of_keyword hk ((mem_keywordRule hk).mp hmatch)).followed
  · exact .inl (mem_idRule.mp hmatch).followed
  · exact .inl (hsymbol s (List.mem_append_right _ hs) (mem_symbolRule.mp hmatch))
  · exact .inr (.inl (mem_stringRule.mp hmatch))
  · exact .inr (.inr (mem_stringRule.mp hmatch))
  · exact .inl (followed_of_mem_oneOf hmatch)

/-! ## Spelling -/

/-- The texts that are a token. Keywords are in upper and lower case. -/
inductive Spells (atof : List Byte → Float32) : Lexeme → List Byte → Prop
  | keyword {k : String × Terminal} {u : List Byte} (mem : k ∈ keywords)
      (text : u.map upper = bytesOf k.1) : Spells atof (plain k.2) u
  | symbol {s : String × Terminal} (mem : s ∈ firstSymbols ++ lastSymbols) :
      Spells atof (plain s.2) (bytesOf s.1)
  | identifier {u : List Byte} (word : IsWord u)
      (free : ∀ k ∈ keywords, u.map upper ≠ bytesOf k.1) : Spells atof (identifier (nameOf u)) u
  | number {u : List Byte} (digits : IsNumber u) : Spells atof (integer (atoi u)) u
  | float {u : List Byte} (digits : IsFloat u) : Spells atof (.float, .floats (atof u)) u
  | string {quote : Byte} {u : List Byte} (mem : quote ∈ [doubleQuote, singleQuote])
      (text : IsString quote u) : Spells atof (.sss, .text u) u

/-- The token that a text is, by its first byte. -/
def spelt (atof : List Byte → Float32) (w : List Byte) : Option Lexeme :=
  if w.headD 0 ∈ letters then
    some (match keywords.find? fun k => w.map upper = bytesOf k.1 with
      | some k => plain k.2
      | none => identifier (nameOf w))
  else if w.headD 0 ∈ byteOf '-' :: digits then
    some (if byteOf '.' ∈ w then (.float, .floats (atof w)) else integer (atoi w))
  else if w.headD 0 ∈ [doubleQuote, singleQuote] then some (.sss, .text w)
  else ((firstSymbols ++ lastSymbols).find? fun s => w = bytesOf s.1).map fun s => plain s.2

theorem spelt_word (h : IsWord w) : spelt atof w =
    some (match keywords.find? fun k => w.map upper = bytesOf k.1 with
      | some k => plain k.2
      | none => identifier (nameOf w)) := by
  obtain ⟨c, m, rfl, hc, -⟩ := h
  exact if_pos hc

theorem keywords_distinct : ∀ k ∈ keywords,
    (keywords.find? fun k' => bytesOf k.1 = bytesOf k'.1) = some k := by
  decide

theorem spelt_keyword {k : String × Terminal} (hk : k ∈ keywords)
    (h : w.map upper = bytesOf k.1) : spelt atof w = some (plain k.2) := by
  rw [spelt_word (isWord_of_keyword hk h), h, keywords_distinct k hk]

theorem spelt_identifier (hword : IsWord w) (hfree : ∀ k ∈ keywords, w.map upper ≠ bytesOf k.1) :
    spelt atof w = some (identifier (nameOf w)) := by
  have hnone : (keywords.find? fun k => w.map upper = bytesOf k.1) = none := by
    rw [List.find?_eq_none]
    exact fun k hk heq => hfree k hk (of_decide_eq_true heq)
  rw [spelt_word hword, hnone]

theorem spelt_digits {c : Byte} {m : List Byte} (hc : c ∈ byteOf '-' :: digits) :
    spelt atof (c :: m) =
      some (if byteOf '.' ∈ c :: m then (.float, .floats (atof (c :: m)))
        else integer (atoi (c :: m))) := by
  rw [spelt, List.headD_cons, if_neg (digits_notMem c hc), if_pos hc]

theorem dot_notMem : byteOf '.' ∉ byteOf '-' :: digits := by
  decide

theorem spelt_number (h : IsNumber w) : spelt atof w = some (integer (atoi w)) := by
  obtain ⟨c, m, rfl, hc, hm⟩ := h.cons
  rw [spelt_digits hc, if_neg]
  intro hmem
  rcases List.mem_cons.mp hmem with rfl | hmem
  · exact dot_notMem hc
  · exact dot_notMem (List.mem_cons_of_mem _ (hm _ hmem))

theorem spelt_float (h : IsFloat w) : spelt atof w = some (.float, .floats (atof w)) := by
  have hdot : byteOf '.' ∈ w := by
    obtain ⟨n, ds, rfl, -⟩ := h
    simp
  obtain ⟨c, m, rfl, hc, -⟩ := h.cons
  rw [spelt_digits hc, if_pos hdot]

theorem quotes_notMem : ∀ q ∈ [doubleQuote, singleQuote],
    q ∉ letters ∧ q ∉ byteOf '-' :: digits := by
  decide +kernel

theorem spelt_string {quote : Byte} (hquote : quote ∈ [doubleQuote, singleQuote])
    (h : IsString quote w) : spelt atof w = some (.sss, .text w) := by
  obtain ⟨body, rfl, -⟩ := h
  have hclass := quotes_notMem quote hquote
  rw [spelt, List.cons_append, List.headD_cons, if_neg hclass.1, if_neg hclass.2, if_pos hquote]

theorem symbols_notMem : ∀ s ∈ firstSymbols ++ lastSymbols, (bytesOf s.1).headD 0 ∉ letters ∧
    (bytesOf s.1).headD 0 ∉ byteOf '-' :: digits ∧
    (bytesOf s.1).headD 0 ∉ [doubleQuote, singleQuote] := by
  decide

theorem symbols_distinct : ∀ s ∈ firstSymbols ++ lastSymbols,
    ((firstSymbols ++ lastSymbols).find? fun s' => bytesOf s.1 = bytesOf s'.1) = some s := by
  decide

theorem spelt_symbol {s : String × Terminal} (hs : s ∈ firstSymbols ++ lastSymbols) :
    spelt atof (bytesOf s.1) = some (plain s.2) := by
  obtain ⟨hletter, hdigit, hquote⟩ := symbols_notMem s hs
  rw [spelt, if_neg hletter, if_neg hdigit, if_neg hquote, symbols_distinct s hs, Option.map_some]

theorem white_notMem : ∀ c ∈ 10 :: whiteBytes, c ∉ letters ∧ c ∉ byteOf '-' :: digits ∧
    c ∉ [doubleQuote, singleQuote] ∧
    ((firstSymbols ++ lastSymbols).find? fun s => [c] = bytesOf s.1) = none := by
  decide +kernel

theorem spelt_white {c : Byte} (hc : c ∈ 10 :: whiteBytes) : spelt atof [c] = none := by
  obtain ⟨hletter, hdigit, hquote, hsymbol⟩ := white_notMem c hc
  rw [spelt, List.headD_cons, if_neg hletter, if_neg hdigit, if_neg hquote, hsymbol,
    Option.map_none]

/-- A text is one token at most. -/
theorem Spells.spelt_eq {token : Lexeme} (h : Spells atof token w) : spelt atof w = some token := by
  cases h with
  | keyword hk htext => exact spelt_keyword hk htext
  | symbol hs => exact spelt_symbol hs
  | identifier hword hfree => exact spelt_identifier hword hfree
  | number hdigits => exact spelt_number hdigits
  | float hdigits => exact spelt_float hdigits
  | string hquote htext => exact spelt_string hquote htext

/-! ## The rules and the spelling -/

/-- The rules down to the keywords. -/
def leadingRules (atof : List Byte → Float32) : List LexRule :=
  [whiteRule, newlineRule, numberRule, floatRule atof] ++ firstSymbols.map symbolRule ++
    keywords.map keywordRule

/-- The rules behind the keywords, without the last one. -/
def trailingRules : List LexRule :=
  idRule :: lastSymbols.map symbolRule ++ [stringRule doubleQuote, stringRule singleQuote]

theorem rules_eq : rules atof = leadingRules atof ++ (trailingRules ++ [anyRule]) := rfl

theorem leadingRules_spelt {rule : LexRule} (hrule : rule ∈ leadingRules atof)
    (hmatch : w ∈ rule.pattern.matches') : rule.action w = spelt atof w := by
  simp only [leadingRules, List.mem_append, List.mem_cons, List.not_mem_nil, or_false, List.mem_map]
    at hrule
  rcases hrule with ((rfl | rfl | rfl | rfl) | ⟨s, hs, rfl⟩) | ⟨k, hk, rfl⟩
  · obtain ⟨c, hc, rfl⟩ := mem_oneOf.mp hmatch
    exact (spelt_white (List.mem_cons_of_mem _ hc)).symm
  · obtain ⟨c, hc, rfl⟩ := mem_oneOf.mp hmatch
    rw [List.mem_singleton.mp hc]
    exact (spelt_white (List.mem_cons_self ..)).symm
  · exact (spelt_number (mem_numberPattern.mp hmatch)).symm
  · exact (spelt_float (mem_floatRule.mp hmatch)).symm
  · rw [mem_symbolRule.mp hmatch, spelt_symbol (List.mem_append_left _ hs)]
    rfl
  · exact (spelt_keyword hk ((mem_keywordRule hk).mp hmatch)).symm

theorem trailingRules_spelt {rule : LexRule} (hrule : rule ∈ trailingRules)
    (hmatch : w ∈ rule.pattern.matches') (hfree : ∀ k ∈ keywords, w.map upper ≠ bytesOf k.1) :
    rule.action w = spelt atof w := by
  simp only [trailingRules, List.mem_append, List.mem_cons, List.not_mem_nil, or_false,
    List.mem_map] at hrule
  rcases hrule with (rfl | ⟨s, hs, rfl⟩) | rfl | rfl
  · exact (spelt_identifier (mem_idRule.mp hmatch) hfree).symm
  · rw [mem_symbolRule.mp hmatch, spelt_symbol (List.mem_append_right _ hs)]
    rfl
  · exact (spelt_string (List.mem_cons_self ..) (mem_stringRule.mp hmatch)).symm
  · have hquote : singleQuote ∈ [doubleQuote, singleQuote] := by simp
    exact (spelt_string hquote (mem_stringRule.mp hmatch)).symm

/-- The rules down to the keywords match a keyword. -/
theorem keyword_matched {k : String × Terminal} (hk : k ∈ keywords)
    (h : w.map upper = bytesOf k.1) : ∃ rule ∈ leadingRules atof, w ∈ rule.pattern.matches' :=
  ⟨keywordRule k, List.mem_append_right _ (List.mem_map_of_mem hk), (mem_keywordRule hk).mpr h⟩

/-- A rule before the last one matches the text of a token. -/
theorem Spells.matched {token : Lexeme} (h : Spells atof token w) :
    ∃ rule ∈ leadingRules atof ++ trailingRules, w ∈ rule.pattern.matches' := by
  cases h with
  | keyword hk htext =>
    obtain ⟨rule, hrule, hmatch⟩ := @keyword_matched w atof _ hk htext
    exact ⟨rule, List.mem_append_left _ hrule, hmatch⟩
  | @symbol s hs =>
    refine ⟨symbolRule s, ?_, mem_symbolRule.mpr rfl⟩
    rcases List.mem_append.mp hs with hs | hs
    · exact List.mem_append_left _ (List.mem_append_left _ (List.mem_append_right _
        (List.mem_map_of_mem hs)))
    · exact List.mem_append_right _ (List.mem_append_left _ (List.mem_cons_of_mem _
        (List.mem_map_of_mem hs)))
  | identifier hword _ =>
    exact ⟨idRule, List.mem_append_right _ (List.mem_cons_self ..), mem_idRule.mpr hword⟩
  | number hdigits => exact ⟨numberRule, by simp [leadingRules], mem_numberPattern.mpr hdigits⟩
  | float hdigits => exact ⟨floatRule atof, by simp [leadingRules], mem_floatRule.mpr hdigits⟩
  | @string quote _ hquote htext =>
    refine ⟨stringRule quote, List.mem_append_right _ (List.mem_append_right _ ?_),
      mem_stringRule.mpr htext⟩
    simp only [List.mem_cons, List.not_mem_nil, or_false] at hquote
    rcases hquote with rfl | rfl <;> simp

theorem IsString.headD {quote : Byte} (h : IsString quote w) : w.headD 0 = quote := by
  obtain ⟨body, rfl, -⟩ := h
  rfl

/-- A string ends at the first quote. -/
theorem IsString.not_longer {quote : Byte} {y : List Byte} (h : IsString quote w) (hy : y ≠ []) :
    ¬IsString quote (w ++ y) := by
  obtain ⟨body, rfl, -⟩ := h
  rintro ⟨body', heq, hquote⟩
  obtain ⟨z, c, rfl⟩ := (List.eq_nil_or_concat y).resolve_left hy
  have hlast : (body ++ [quote] ++ z) ++ [c] = body' ++ [quote] := by
    rw [List.cons_append, List.cons_append, List.cons_append] at heq
    rw [← List.tail_eq_of_cons_eq heq]
    simp
  obtain ⟨rfl, -⟩ := List.append_inj' hlast rfl
  exact hquote (by simp)

theorem Spells.first {token : Lexeme} (h : Spells atof token w) :
    w ≠ [] ∧ (w.headD 0 ∈ [doubleQuote, singleQuote] → IsString (w.headD 0) w) := by
  have hword : ∀ {u}, IsWord u →
      u ≠ [] ∧ (u.headD 0 ∈ [doubleQuote, singleQuote] → IsString (u.headD 0) u) := by
    rintro _ ⟨c, m, rfl, hc, -⟩
    exact ⟨by simp, fun hquote => absurd hc (quotes_notMem c hquote).1⟩
  cases h with
  | keyword hk htext => exact hword (isWord_of_keyword hk htext)
  | @symbol s hs =>
    refine ⟨fun hnil => ?_, fun hquote => absurd hquote (symbols_notMem s hs).2.2⟩
    have hnonempty : ∀ s ∈ firstSymbols ++ lastSymbols, bytesOf s.1 ≠ [] := by decide
    exact hnonempty s hs hnil
  | identifier hid _ => exact hword hid
  | number hdigits =>
    obtain ⟨c, m, rfl, hc, -⟩ := hdigits.cons
    exact ⟨by simp, fun hquote => absurd hc (quotes_notMem c hquote).2⟩
  | float hdigits =>
    obtain ⟨c, m, rfl, hc, -⟩ := hdigits.cons
    exact ⟨by simp, fun hquote => absurd hc (quotes_notMem c hquote).2⟩
  | string _ htext =>
    refine ⟨fun hnil => ?_, fun _ => ?_⟩
    · obtain ⟨body, rfl, -⟩ := htext
      cases hnil
    · rw [htext.headD]
      exact htext

/-- No rule matches a text and a byte that cannot go on with it. -/
theorem longer_notMem {rule : LexRule} (hrule : rule ∈ rules atof) {y : List Byte} (hne : w ≠ [])
    (hstring : w.headD 0 ∈ [doubleQuote, singleQuote] → IsString (w.headD 0) w) (hy : y ≠ [])
    (hends : ∀ c ∈ y.head?, follows (w.headD 0) c = false) : w ++ y ∉ rule.pattern.matches' := by
  intro hmatch
  obtain ⟨a, m, rfl⟩ := List.exists_cons_of_ne_nil hne
  obtain ⟨c, y, rfl⟩ := List.exists_cons_of_ne_nil hy
  rw [List.headD_cons] at hstring hends
  rcases rules_followed hrule hmatch with hfollowed | htext | htext
  · have hc := hfollowed a (m ++ c :: y) rfl c (by simp)
    rw [hends c rfl] at hc
    cases hc
  · obtain rfl : a = doubleQuote := htext.headD
    exact (hstring (by simp)).not_longer hy htext
  · obtain rfl : a = singleQuote := htext.headD
    exact (hstring (by simp)).not_longer hy htext

/-- **A text that ends is taken as the token that it spells**, if it spells one. -/
theorem lex_append {x : List Byte} (hne : w ≠ [])
    (hmatch : ∃ rule ∈ leadingRules atof ++ trailingRules, w ∈ rule.pattern.matches')
    (hstring : w.headD 0 ∈ [doubleQuote, singleQuote] → IsString (w.headD 0) w)
    (hends : ∀ c ∈ x.head?, follows (w.headD 0) c = false) :
    lex atof (w ++ x) = (spelt atof w).toList ++ lex atof x := by
  have hlonger : ∀ r ∈ rules atof, ∀ y, y ≠ [] → y <+: x → w ++ y ∉ r.pattern.matches' := by
    rintro r hr y hy ⟨z, rfl⟩
    refine longer_notMem hr hne hstring hy fun c hc => hends c ?_
    rw [List.head?_append, hc]
    rfl
  by_cases hkey : ∃ k ∈ keywords, w.map upper = bytesOf k.1
  · obtain ⟨k, hk, htext⟩ := hkey
    rw [lex, lex, rules_eq]
    rw [rules_eq] at hlonger
    exact scan_front hne (keyword_matched hk htext)
      (fun r hr hr' => leadingRules_spelt hr hr') hlonger
  · have hassoc : rules atof = (leadingRules atof ++ trailingRules) ++ [anyRule] := by
      rw [rules_eq, List.append_assoc]
    rw [lex, lex, hassoc]
    rw [hassoc] at hlonger
    refine scan_front hne hmatch (fun r hr hr' => ?_) hlonger
    rcases List.mem_append.mp hr with hr | hr
    · exact leadingRules_spelt hr hr'
    · exact trailingRules_spelt hr hr' fun k hk htext => hkey ⟨k, hk, htext⟩

/-! ## Layouts -/

/-- The text of tokens. A token ends where the next byte cannot go on with it. -/
inductive Layout (atof : List Byte → Float32) : List Lexeme → List Byte → Prop
  | nil : Layout atof [] []
  | white {c : Byte} {tokens : List Lexeme} {text : List Byte} (mem : c ∈ 10 :: whiteBytes)
      (rest : Layout atof tokens text) : Layout atof tokens (c :: text)
  | token {token : Lexeme} {u : List Byte} {tokens : List Lexeme} {text : List Byte}
      (spells : Spells atof token u) (ends : ∀ c ∈ text.head?, follows (u.headD 0) c = false)
      (rest : Layout atof tokens text) : Layout atof (token :: tokens) (u ++ text)

theorem white_ends : ∀ c ∈ 10 :: whiteBytes, ∀ x : Byte, follows c x = false := by
  decide +kernel

/-- **The tokens of a layout** are the ones that it lays out. -/
theorem lex_layout {tokens : List Lexeme} {text : List Byte} (h : Layout atof tokens text) :
    lex atof text = tokens := by
  induction h with
  | nil => rw [lex, scan]
  | @white c tokens text hc _ ih =>
    have hmatch : ∃ rule ∈ leadingRules atof ++ trailingRules, [c] ∈ rule.pattern.matches' := by
      rcases List.mem_cons.mp hc with rfl | hc
      · exact ⟨newlineRule, by simp [leadingRules], mem_oneOf.mpr ⟨10, by simp, rfl⟩⟩
      · exact ⟨whiteRule, by simp [leadingRules], mem_oneOf.mpr ⟨c, hc, rfl⟩⟩
    have hquote : c ∉ [doubleQuote, singleQuote] := (white_notMem c hc).2.2.1
    have hlex := lex_append (x := text) (List.cons_ne_nil c []) hmatch
      (fun hmem => absurd hmem hquote) fun x _ => white_ends c hc x
    rw [spelt_white hc, ih] at hlex
    exact hlex
  | @token token u tokens text hspells hends _ ih =>
    have hfirst := hspells.first
    rw [lex_append hfirst.1 hspells.matched hfirst.2 hends, hspells.spelt_eq, ih]
    rfl

theorem blank_ends : ∀ first : Byte, follows first 32 = false :=
  fun _ => follows_eq_false (by decide) (by decide)

/-! ## Writing -/

/-- A keyword as it is. -/
theorem keyword_spells {k : String × Terminal} (hk : k ∈ keywords) :
    Spells atof (plain k.2) (bytesOf k.1) := by
  refine .keyword hk ?_
  have hall : ∀ k ∈ keywords, (bytesOf k.1).map upper = bytesOf k.1 := by decide
  exact hall k hk

/-- The string can be written as an identifier. -/
structure IsName (name : String) : Prop where
  bytes : nameOf (bytesOf name) = name
  word : IsWord (bytesOf name)
  free : ∀ k ∈ keywords, (bytesOf name).map upper ≠ bytesOf k.1

theorem isWord_iff : IsWord w ↔
    w ≠ [] ∧ (∀ c ∈ w.head?, c ∈ letters) ∧ ∀ c ∈ w.tail, c ∈ wordBytes := by
  constructor
  · rintro ⟨c, m, rfl, hc, hm⟩
    exact ⟨List.cons_ne_nil c m, by simpa using hc, hm⟩
  · rintro ⟨hne, hc, hm⟩
    obtain ⟨c, m, rfl⟩ := List.exists_cons_of_ne_nil hne
    exact ⟨c, m, rfl, hc c rfl, hm⟩

instance : Decidable (IsWord w) := decidable_of_iff _ isWord_iff.symm

theorem isName_iff {name : String} : IsName name ↔ nameOf (bytesOf name) = name ∧
    IsWord (bytesOf name) ∧ ∀ k ∈ keywords, (bytesOf name).map upper ≠ bytesOf k.1 :=
  ⟨fun h => ⟨h.bytes, h.word, h.free⟩, fun h => ⟨h.1, h.2.1, h.2.2⟩⟩

instance {name : String} : Decidable (IsName name) := decidable_of_iff _ isName_iff.symm

theorem IsName.spells {name : String} (h : IsName name) :
    Spells atof (identifier name) (bytesOf name) := by
  have hspells : Spells atof _ _ := .identifier h.word h.free
  rw [h.bytes] at hspells
  exact hspells

/-- The decimal digits of a number. -/
def decimal (n : ℕ) : List Byte :=
  if n = 0 then [byteOf '0'] else (Nat.digits 10 n).reverse.map fun d => Fin.ofNat 256 (48 + d)

/-- A number as it is written. -/
def writtenInt (v : Int) : List Byte :=
  if v < 0 then byteOf '-' :: decimal v.natAbs else decimal v.natAbs

/-- A string between quotes, without a zero. -/
def IsQuoted (w : List Byte) : Prop :=
  0 ∉ w ∧ ∃ quote ∈ [doubleQuote, singleQuote], IsString quote w

theorem isString_iff {quote : Byte} : IsString quote w ↔
    w = quote :: w.tail.dropLast ++ [quote] ∧ quote ∉ w.tail.dropLast := by
  constructor
  · rintro ⟨body, rfl, hbody⟩
    have htail : (quote :: body ++ [quote]).tail.dropLast = body := by simp
    rw [htail]
    exact ⟨rfl, hbody⟩
  · rintro ⟨heq, hbody⟩
    exact ⟨_, heq, hbody⟩

instance {quote : Byte} : Decidable (IsString quote w) := decidable_of_iff _ isString_iff.symm

instance : Decidable (IsQuoted w) := inferInstanceAs (Decidable (_ ∧ _))

/-- A text of a token, if there is one that has no zero. The texts of a `float` are given. -/
def writeToken (print : Float32 → Option (List Byte)) : Lexeme → Option (List Byte)
  | (.id, .string name) => if IsName name then some (bytesOf name) else none
  | (.number, .number v) => if -2147483648 ≤ v ∧ v ≤ 2147483647 then some (writtenInt v) else none
  | (.float, .floats x) => print x
  | (.sss, .text w) => if IsQuoted w then some w else none
  | (t, .unset) => ((keywords ++ (firstSymbols ++ lastSymbols)).find? fun k => k.2 = t).map
      fun k => bytesOf k.1
  | _ => none

/-- The text of tokens, with a blank behind each one. -/
def writeTokens (print : Float32 → Option (List Byte)) : List Lexeme → Option (List Byte)
  | [] => some []
  | token :: tokens => do
    let text ← writeToken print token
    let rest ← writeTokens print tokens
    return text ++ 32 :: rest

theorem digitsValue_decimal (n : ℕ) : digitsValue (decimal n) = n := by
  unfold decimal
  split
  · rename_i hzero
    rw [hzero]
    rfl
  · have hdigits : ∀ ds : List ℕ, (∀ d ∈ ds, d < 10) →
        digitsValue (ds.reverse.map fun d => Fin.ofNat 256 (48 + d)) = Nat.ofDigits 10 ds := by
      intro ds hds
      induction ds with
      | nil => rfl
      | cons d ds ih =>
        rw [List.forall_mem_cons] at hds
        have hbyte : (Fin.ofNat 256 (48 + d)).val = 48 + d := Nat.mod_eq_of_lt (by omega)
        have ih := ih hds.2
        rw [digitsValue] at ih ⊢
        rw [List.reverse_cons, List.map_append, List.foldl_append, ih, List.map_singleton,
          List.foldl_cons, List.foldl_nil, hbyte, Nat.ofDigits_cons]
        omega
    rw [hdigits _ fun d hd => Nat.digits_lt_base (by decide) hd, Nat.ofDigits_digits]

theorem decimal_digits (n : ℕ) : decimal n ≠ [] ∧ ∀ c ∈ decimal n, c ∈ digits := by
  have hdigit : ∀ d < 10, Fin.ofNat 256 (48 + d) ∈ digits := by decide
  unfold decimal
  split
  · exact ⟨by simp, by decide +kernel⟩
  · rename_i hzero
    refine ⟨by simpa [Nat.digits_eq_nil_iff_eq_zero] using hzero, fun c hc => ?_⟩
    obtain ⟨d, hd, rfl⟩ := List.mem_map.mp hc
    exact hdigit d (Nat.digits_lt_base (by decide) (List.mem_reverse.mp hd))

theorem isNumber_writtenInt (v : Int) : IsNumber (writtenInt v) := by
  obtain ⟨hne, hdigits⟩ := decimal_digits v.natAbs
  unfold writtenInt
  split
  · exact ⟨[byteOf '-'], _, rfl, .inr rfl, hne, hdigits⟩
  · exact ⟨[], _, rfl, .inl rfl, hne, hdigits⟩

theorem minus_notMem : byteOf '-' ∉ digits := by
  decide

/-- A number that an `int` can have is read as it is written. -/
theorem atoi_writtenInt {v : Int} (h : -2147483648 ≤ v ∧ v ≤ 2147483647) :
    atoi (writtenInt v) = v := by
  have hstrtol : strtol (writtenInt v) = v := by
    unfold writtenInt
    split
    · rw [strtol, if_pos rfl, digitsValue_decimal]
      omega
    · obtain ⟨hne, hdigits⟩ := decimal_digits v.natAbs
      have hvalue := digitsValue_decimal v.natAbs
      obtain ⟨c, ds, heq⟩ := List.exists_cons_of_ne_nil hne
      rw [heq] at hdigits hvalue ⊢
      have hc : c ≠ byteOf '-' := fun hminus =>
        minus_notMem (hminus ▸ hdigits c (List.mem_cons_self ..))
      rw [strtol, if_neg hc, hvalue]
      omega
  rw [atoi, hstrtol]
  exact wrap32_eq h.1 h.2

variable {print : Float32 → Option (List Byte)} {token : Lexeme} {tokens : List Lexeme}

/-- **A text that is written for a token** spells the token. -/
theorem writeToken_spells (hprint : ∀ x u, print x = some u → IsFloat u ∧ atof u = x)
    (h : writeToken print token = some w) : Spells atof token w := by
  unfold writeToken at h
  split at h
  · split at h
    · rename_i hname
      cases h
      exact hname.spells
    · cases h
  · split at h
    · rename_i v hfits
      cases h
      have hspells : Spells atof _ _ := .number (isNumber_writtenInt v)
      rw [atoi_writtenInt hfits] at hspells
      exact hspells
    · cases h
  · rename_i x
    obtain ⟨hfloat, hvalue⟩ := hprint x w h
    have hspells : Spells atof _ _ := .float hfloat
    rw [hvalue] at hspells
    exact hspells
  · split at h
    · rename_i hquoted
      cases h
      obtain ⟨-, quote, hquote, hstring⟩ := hquoted
      exact .string hquote hstring
    · cases h
  · rename_i t
    obtain ⟨k, hfind, rfl⟩ := Option.map_eq_some_iff.mp h
    have hkind := List.find?_some hfind
    have hmem := List.mem_of_find?_eq_some hfind
    simp only [decide_eq_true_eq] at hkind
    subst hkind
    rcases List.mem_append.mp hmem with hk | hs
    · exact keyword_spells hk
    · exact .symbol hs
  · cases h

/-- The first byte of a text and the ones that follow it are not zero. -/
theorem Followed.zero_notMem (h : Followed w) (hhead : w.head? ≠ some 0) : 0 ∉ w := by
  have hfollows : ∀ c : Byte, follows c 0 = false := fun _ =>
    follows_eq_false (by decide) (by decide)
  intro hmem
  cases w with
  | nil => cases hmem
  | cons c m =>
    rcases List.mem_cons.mp hmem with rfl | hmem
    · exact hhead rfl
    · have hzero := h c m rfl 0 hmem
      rw [hfollows c] at hzero
      cases hzero

/-- No text that is written has a zero. -/
theorem zero_notMem_writeToken (hprint : ∀ x u, print x = some u → IsFloat u ∧ atof u = x)
    (h : writeToken print token = some w) : 0 ∉ w := by
  have hspells := writeToken_spells hprint h
  have hletters : 0 ∉ letters := by decide
  have hdigits : 0 ∉ byteOf '-' :: digits := by decide
  have hword : ∀ u, IsWord u → 0 ∉ u := by
    intro u hu
    refine hu.followed.zero_notMem ?_
    obtain ⟨c, m, rfl, hc, -⟩ := hu
    rintro ⟨⟩
    exact hletters hc
  cases hspells with
  | keyword hk htext => exact hword _ (isWord_of_keyword hk htext)
  | @symbol s hs =>
    have hsymbols : ∀ s ∈ firstSymbols ++ lastSymbols, 0 ∉ bytesOf s.1 := by decide
    exact hsymbols s hs
  | identifier hid _ => exact hword _ hid
  | number hnumber =>
    refine hnumber.followed.zero_notMem ?_
    obtain ⟨c, m, rfl, hc, -⟩ := hnumber.cons
    rintro ⟨⟩
    exact hdigits hc
  | float hfloat =>
    refine hfloat.followed.zero_notMem ?_
    obtain ⟨c, m, rfl, hc, -⟩ := hfloat.cons
    rintro ⟨⟩
    exact hdigits hc
  | string _ _ =>
    rw [writeToken] at h
    split at h
    · rename_i hquoted
      exact hquoted.1
    · cases h

/-- **The text of tokens** is a layout of them, and has no zero. -/
theorem writeTokens_layout (hprint : ∀ x u, print x = some u → IsFloat u ∧ atof u = x)
    {text : List Byte} (h : writeTokens print tokens = some text) :
    Layout atof tokens text ∧ 0 ∉ text := by
  induction tokens generalizing text with
  | nil =>
    cases h
    exact ⟨.nil, List.not_mem_nil⟩
  | cons token tokens ih =>
    obtain ⟨u, hu, h⟩ := Option.bind_eq_some_iff.mp h
    obtain ⟨rest, hrest, h⟩ := Option.bind_eq_some_iff.mp h
    cases h
    obtain ⟨hlayout, hzero⟩ := ih hrest
    refine ⟨.token (writeToken_spells hprint hu) (fun c hc => ?_)
      (.white (by simp [whiteBytes]) hlayout), ?_⟩
    · cases hc
      exact blank_ends _
    · have hu := zero_notMem_writeToken hprint hu
      simp [hu, hzero]

end Miniob.Sql.Parser
