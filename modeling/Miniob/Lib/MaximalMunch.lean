import Mathlib.Computability.RegularExpressions
import Mathlib.Data.Nat.Find

/-!
# Scanners

A scanner has rules in an order. It takes the longest prefix that a rule matches, and of the rules
that match it the first one, and goes on behind it.

* `ScanRule`, `best`, `scan`: the scanner. A symbol that no rule matches is passed over.
* `oneOf`, `sequence`, `oneOrMore`, `optional`: patterns over classes of symbols, with what they
  match.
* `scan_append`: a prefix is taken as it is if a rule matches it, no rule matches more of the input
  and no earlier rule matches the prefix.
-/

namespace Miniob.Lib

variable {α τ : Type}

/-! ## Patterns -/

/-- One of the symbols. -/
def oneOf (cs : List α) : RegularExpression α :=
  cs.foldr (fun c p => .char c + p) 0

/-- One symbol of each class. -/
def sequence (css : List (List α)) : RegularExpression α :=
  css.foldr (fun cs p => oneOf cs * p) 1

/-- The pattern once or more often. -/
def oneOrMore (p : RegularExpression α) : RegularExpression α := p * p.star

/-- The pattern or nothing. -/
def optional (p : RegularExpression α) : RegularExpression α := 1 + p

variable {cs : List α} {w x : List α}

theorem mem_oneOf : w ∈ (oneOf cs).matches' ↔ ∃ c ∈ cs, w = [c] := by
  induction cs with
  | nil =>
    refine iff_of_false (Set.notMem_empty w) ?_
    rintro ⟨c, hc, -⟩
    cases hc
  | cons a cs ih =>
    have hcons : w ∈ (oneOf (a :: cs)).matches' ↔ w = [a] ∨ w ∈ (oneOf cs).matches' := Iff.rfl
    rw [hcons, ih]
    simp

theorem mem_sequence {css : List (List α)} :
    w ∈ (sequence css).matches' ↔ List.Forall₂ (fun c cs => c ∈ cs) w css := by
  induction css generalizing w with
  | nil =>
    rw [List.forall₂_nil_right_iff]
    exact Iff.rfl
  | cons cs css ih =>
    have hcons : w ∈ (sequence (cs :: css)).matches' ↔
        ∃ a ∈ (oneOf cs).matches', ∃ b ∈ (sequence css).matches', a ++ b = w := Iff.rfl
    rw [hcons, List.forall₂_cons_right_iff]
    constructor
    · rintro ⟨a, ha, b, hb, rfl⟩
      obtain ⟨c, hc, rfl⟩ := mem_oneOf.mp ha
      exact ⟨c, b, hc, ih.mp hb, rfl⟩
    · rintro ⟨c, b, hc, hb, rfl⟩
      exact ⟨[c], mem_oneOf.mpr ⟨c, hc, rfl⟩, b, ih.mpr hb, rfl⟩

theorem mem_star_oneOf : w ∈ (RegularExpression.star (oneOf cs)).matches' ↔ ∀ c ∈ w, c ∈ cs := by
  rw [RegularExpression.matches'_star, Language.mem_kstar]
  constructor
  · rintro ⟨l, rfl, hl⟩ c hc
    obtain ⟨y, hy, hc⟩ := List.mem_flatten.mp hc
    obtain ⟨a, ha, rfl⟩ := mem_oneOf.mp (hl y hy)
    rw [List.mem_singleton.mp hc]
    exact ha
  · intro hw
    refine ⟨w.map fun c => [c], ?_, fun y hy => ?_⟩
    · rw [← List.flatMap_def, List.flatMap_singleton']
    · obtain ⟨c, hc, rfl⟩ := List.mem_map.mp hy
      exact mem_oneOf.mpr ⟨c, hw c hc, rfl⟩

theorem mem_oneOrMore {p : RegularExpression α} : w ∈ (oneOrMore p).matches' ↔
    ∃ a ∈ p.matches', ∃ b ∈ p.star.matches', a ++ b = w := Iff.rfl

theorem mem_optional {p : RegularExpression α} :
    w ∈ (optional p).matches' ↔ w = [] ∨ w ∈ p.matches' := Iff.rfl

theorem mem_oneOrMore_oneOf :
    w ∈ (oneOrMore (oneOf cs)).matches' ↔ w ≠ [] ∧ ∀ c ∈ w, c ∈ cs := by
  rw [mem_oneOrMore]
  constructor
  · rintro ⟨a, ha, b, hb, rfl⟩
    obtain ⟨c, hc, rfl⟩ := mem_oneOf.mp ha
    exact ⟨by simp, List.forall_mem_cons.mpr ⟨hc, mem_star_oneOf.mp hb⟩⟩
  · rintro ⟨hne, hall⟩
    obtain ⟨c, b, rfl⟩ := List.exists_cons_of_ne_nil hne
    rw [List.forall_mem_cons] at hall
    exact ⟨[c], mem_oneOf.mpr ⟨c, hall.1, rfl⟩, b, mem_star_oneOf.mpr hall.2, rfl⟩

/-- Symbols of a class more often than once, once or more often. -/
theorem mem_oneOrMore_oneOrMore :
    w ∈ (oneOrMore (oneOrMore (oneOf cs))).matches' ↔ w ≠ [] ∧ ∀ c ∈ w, c ∈ cs := by
  rw [mem_oneOrMore]
  constructor
  · rintro ⟨a, ha, b, hb, rfl⟩
    obtain ⟨hne, ha⟩ := mem_oneOrMore_oneOf.mp ha
    rw [RegularExpression.matches'_star, Language.mem_kstar] at hb
    obtain ⟨l, rfl, hl⟩ := hb
    refine ⟨by simp [hne], fun c hc => ?_⟩
    rcases List.mem_append.mp hc with hc | hc
    · exact ha c hc
    · obtain ⟨y, hy, hc⟩ := List.mem_flatten.mp hc
      exact (mem_oneOrMore_oneOf.mp (hl y hy)).2 c hc
  · intro hw
    refine ⟨w, mem_oneOrMore_oneOf.mpr hw, [], ?_, List.append_nil w⟩
    exact Language.nil_mem_kstar _

/-! ## Rules -/

/-- A rule of a scanner. -/
structure ScanRule (α τ : Type) where
  /-- What the rule matches. -/
  pattern : RegularExpression α
  /-- The token of what is matched, if there is one. -/
  action : List α → Option τ

variable [DecidableEq α] {rule : ScanRule α τ} {rules : List (ScanRule α τ)} {input : List α}
  {n : ℕ}

/-- The length of the longest prefix that a rule matches, or zero. -/
def ScanRule.longest (rule : ScanRule α τ) (input : List α) : ℕ :=
  Nat.findGreatest (fun n => rule.pattern.rmatch (input.take n) = true) input.length

/-- The first rule that matches the longest prefix, with the length of the prefix. -/
def best : List (ScanRule α τ) → List α → Option (ScanRule α τ × ℕ)
  | [], _ => none
  | rule :: rules, input =>
    match best rules input with
    | none => if 0 < rule.longest input then some (rule, rule.longest input) else none
    | some (r, n) => if n ≤ rule.longest input then some (rule, rule.longest input) else some (r, n)

theorem ScanRule.longest_le_length : rule.longest input ≤ input.length :=
  Nat.findGreatest_le _

/-- The best rule is one of the later ones, or the first, which takes as much as they do. -/
theorem best_cons_cases {r : ScanRule α τ} (h : best (rule :: rules) input = some (r, n)) :
    best rules input = some (r, n) ∨ r = rule ∧ n = rule.longest input ∧
      (0 < n ∨ ∃ r' n', best rules input = some (r', n') ∧ n' ≤ n) := by
  rw [best] at h
  split at h
  · split at h
    · rename_i hpos
      cases h
      exact .inr ⟨rfl, rfl, .inl hpos⟩
    · cases h
  · rename_i hbest
    split at h
    · rename_i hle
      cases h
      exact .inr ⟨rfl, rfl, .inr ⟨_, _, hbest, hle⟩⟩
    · cases h
      exact .inl hbest

theorem best_pos {r : ScanRule α τ} (h : best rules input = some (r, n)) :
    0 < n ∧ n ≤ input.length := by
  induction rules generalizing r n with
  | nil => cases h
  | cons rule rules ih =>
    obtain h | ⟨rfl, rfl, hpos | ⟨r', n', hrest, hle⟩⟩ := best_cons_cases h
    · exact ih h
    · exact ⟨hpos, r.longest_le_length⟩
    · exact ⟨(ih hrest).1.trans_le hle, r.longest_le_length⟩

/-- The tokens of an input. -/
def scan (rules : List (ScanRule α τ)) (input : List α) : List τ :=
  match _hinput : input with
  | [] => []
  | _ :: rest =>
    match _hbest : best rules input with
    | none => scan rules rest
    | some (rule, n) => (rule.action (input.take n)).toList ++ scan rules (input.drop n)
termination_by input.length
decreasing_by
  · subst _hinput
    exact Nat.lt_succ_self _
  · have := (best_pos _hbest).1
    subst _hinput
    rw [List.length_drop, List.length_cons]
    omega

theorem scan_of_none {a : α} (h : best rules (a :: input) = none) :
    scan rules (a :: input) = scan rules input := by
  rw [scan]
  split
  · rfl
  · rename_i hsome
    rw [h] at hsome
    cases hsome

theorem scan_of_some (h : best rules input = some (rule, n)) :
    scan rules input = (rule.action (input.take n)).toList ++ scan rules (input.drop n) := by
  cases input with
  | nil =>
    have := best_pos h
    rw [List.length_nil] at this
    omega
  | cons a input =>
    rw [scan]
    split
    · rename_i hnone
      rw [h] at hnone
      cases hnone
    · rename_i hsome
      rw [h] at hsome
      cases hsome
      rfl

/-! ## The longest prefix -/

/-- A rule that does not match more than a prefix takes no more. -/
theorem ScanRule.longest_le
    (hlonger : ∀ y, y ≠ [] → y <+: x → w ++ y ∉ rule.pattern.matches') :
    rule.longest (w ++ x) ≤ w.length := by
  by_contra hlt
  have hlt := not_le.mp hlt
  have hmatch : rule.pattern.rmatch ((w ++ x).take (rule.longest (w ++ x))) = true :=
    Nat.findGreatest_of_ne_zero (m := rule.longest (w ++ x)) rfl (by omega)
  have htake : (w ++ x).take (rule.longest (w ++ x)) =
      w ++ x.take (rule.longest (w ++ x) - w.length) := by
    rw [List.take_append, List.take_of_length_le hlt.le]
  have hle : rule.longest (w ++ x) ≤ (w ++ x).length := rule.longest_le_length
  rw [List.length_append] at hle
  rw [htake, RegularExpression.rmatch_iff_matches'] at hmatch
  refine hlonger _ (fun hnil => ?_) (List.take_prefix _ _) hmatch
  have hlength := congrArg List.length hnil
  rw [List.length_take, List.length_nil] at hlength
  omega

/-- The prefix is the longest one. -/
theorem ScanRule.longest_eq (hmatch : w ∈ rule.pattern.matches')
    (hlonger : ∀ y, y ≠ [] → y <+: x → w ++ y ∉ rule.pattern.matches') :
    rule.longest (w ++ x) = w.length := by
  refine le_antisymm (longest_le hlonger) (Nat.le_findGreatest ?_ ?_)
  · simp
  · rw [List.take_left]
    exact (RegularExpression.rmatch_iff_matches' _ _).mpr hmatch

/-- A rule that does not match the prefix either takes less. -/
theorem ScanRule.longest_lt (hne : w ≠ []) (hmatch : w ∉ rule.pattern.matches')
    (hlonger : ∀ y, y ≠ [] → y <+: x → w ++ y ∉ rule.pattern.matches') :
    rule.longest (w ++ x) < w.length := by
  refine (longest_le hlonger).lt_of_ne fun heq => hmatch ?_
  have hpos := List.length_pos_iff.mpr hne
  have hfound : rule.pattern.rmatch ((w ++ x).take w.length) = true :=
    Nat.findGreatest_of_ne_zero heq (by omega)
  rw [List.take_left] at hfound
  exact (RegularExpression.rmatch_iff_matches' _ _).mp hfound

theorem best_le {k : ℕ} {r : ScanRule α τ} (hall : ∀ rule ∈ rules, rule.longest input ≤ k)
    (h : best rules input = some (r, n)) : n ≤ k := by
  induction rules generalizing r n with
  | nil => cases h
  | cons rule rules ih =>
    rw [List.forall_mem_cons] at hall
    obtain h | ⟨rfl, rfl, -⟩ := best_cons_cases h
    · exact ih hall.2 h
    · exact hall.1

/-- **The best rule** is the first one that matches the longest prefix. -/
theorem best_eq {earlier later : List (ScanRule α τ)} (hne : w ≠ [])
    (hmatch : w ∈ rule.pattern.matches')
    (hlonger : ∀ r ∈ earlier ++ rule :: later, ∀ y, y ≠ [] → y <+: x → w ++ y ∉ r.pattern.matches')
    (hearlier : ∀ r ∈ earlier, w ∉ r.pattern.matches') :
    best (earlier ++ rule :: later) (w ++ x) = some (rule, w.length) := by
  induction earlier with
  | nil =>
    rw [List.nil_append, List.forall_mem_cons] at hlonger
    have hrule := ScanRule.longest_eq hmatch hlonger.1
    have hpos := List.length_pos_iff.mpr hne
    rw [List.nil_append, best, hrule]
    cases hbest : best later (w ++ x) with
    | none => exact if_pos hpos
    | some found =>
      obtain ⟨r, n⟩ := found
      have hle := best_le (fun r hr => ScanRule.longest_le (hlonger.2 r hr)) hbest
      exact if_pos hle
  | cons r earlier ih =>
    rw [List.cons_append, List.forall_mem_cons] at hlonger
    rw [List.forall_mem_cons] at hearlier
    have hlt := ScanRule.longest_lt hne hearlier.1 hlonger.1
    rw [List.cons_append, best, ih hlonger.2 hearlier.2]
    exact if_neg (not_le.mpr hlt)

/-- **A prefix is taken as it is.** -/
theorem scan_append {earlier later : List (ScanRule α τ)} (hne : w ≠ [])
    (hmatch : w ∈ rule.pattern.matches')
    (hlonger : ∀ r ∈ earlier ++ rule :: later, ∀ y, y ≠ [] → y <+: x → w ++ y ∉ r.pattern.matches')
    (hearlier : ∀ r ∈ earlier, w ∉ r.pattern.matches') :
    scan (earlier ++ rule :: later) (w ++ x) =
      (rule.action w).toList ++ scan (earlier ++ rule :: later) x := by
  rw [scan_of_some (best_eq hne hmatch hlonger hearlier), List.take_left, List.drop_left]

/-- A prefix that rules match is taken as it is if no rule matches more and the actions agree. -/
theorem scan_front {front back : List (ScanRule α τ)} {token : Option τ} (hne : w ≠ [])
    (hmatch : ∃ r ∈ front, w ∈ r.pattern.matches')
    (haction : ∀ r ∈ front, w ∈ r.pattern.matches' → r.action w = token)
    (hlonger : ∀ r ∈ front ++ back, ∀ y, y ≠ [] → y <+: x → w ++ y ∉ r.pattern.matches') :
    scan (front ++ back) (w ++ x) = token.toList ++ scan (front ++ back) x := by
  obtain ⟨r, hr, hrw⟩ := hmatch
  have hsome : (front.find? fun r => r.pattern.rmatch w).isSome = true := by
    rw [List.find?_isSome]
    exact ⟨r, hr, (RegularExpression.rmatch_iff_matches' _ _).mpr hrw⟩
  obtain ⟨first, hfirst⟩ := Option.isSome_iff_exists.mp hsome
  obtain ⟨hmatches, earlier, later, rfl, hearlier⟩ := List.find?_eq_some_iff_append.mp hfirst
  have hmatches := (RegularExpression.rmatch_iff_matches' _ _).mp hmatches
  have hmem : first ∈ earlier ++ first :: later := List.mem_append_right _ (List.mem_cons_self ..)
  rw [List.append_assoc, List.cons_append] at hlonger ⊢
  rw [scan_append hne hmatches hlonger, haction first hmem hmatches]
  intro r hr hrw
  have hnot := hearlier r hr
  rw [(RegularExpression.rmatch_iff_matches' _ _).mpr hrw] at hnot
  cases hnot

/-- The best rule matches what it takes. -/
theorem best_matches {r : ScanRule α τ} (h : best rules input = some (r, n)) :
    r ∈ rules ∧ input.take n ∈ r.pattern.matches' := by
  have hlongest : r ∈ rules ∧ r.longest input = n := by
    induction rules generalizing r n with
    | nil => cases h
    | cons rule rules ih =>
      obtain h | ⟨rfl, rfl, -⟩ := best_cons_cases h
      · exact ⟨List.mem_cons_of_mem _ (ih h).1, (ih h).2⟩
      · exact ⟨List.mem_cons_self .., rfl⟩
  refine ⟨hlongest.1, (RegularExpression.rmatch_iff_matches' _ _).mp ?_⟩
  exact Nat.findGreatest_of_ne_zero hlongest.2 (best_pos h).1.ne'

/-- Every token of an input is what the action of a rule makes of a text that the rule matches. -/
theorem mem_scan {token : τ} (h : token ∈ scan rules input) :
    ∃ rule ∈ rules, ∃ text ∈ rule.pattern.matches', rule.action text = some token := by
  generalize hlength : input.length = k
  induction k using Nat.strong_induction_on generalizing input with
  | _ k ih =>
    cases input with
    | nil =>
      rw [scan] at h
      cases h
    | cons a rest =>
      rw [List.length_cons] at hlength
      cases hbest : best rules (a :: rest) with
      | none =>
        rw [scan_of_none hbest] at h
        exact ih rest.length (by omega) h rfl
      | some found =>
        obtain ⟨rule, n⟩ := found
        rw [scan_of_some hbest, List.mem_append] at h
        rcases h with h | h
        · obtain ⟨hrule, hmatch⟩ := best_matches hbest
          exact ⟨rule, hrule, _, hmatch, Option.mem_toList.mp h⟩
        · have hpos := (best_pos hbest).1
          refine ih ((a :: rest).drop n).length ?_ h rfl
          rw [List.length_drop, List.length_cons]
          omega

end Miniob.Lib
