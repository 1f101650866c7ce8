import Mathlib.Computability.Language
import Mathlib.Algebra.Order.BigOperators.Group.List
import Mathlib.Logic.Relation
import Mathlib.Tactic.Linarith
import Mathlib.Tactic.Ring

/-!
# Table-driven parsers

A shift-reduce parser moves by its tables. A stack entry is a state with a value, and the action of
a rule computes a value from the values of the right-hand side, and may change an environment.

* `ShiftReduce`, `step`, `run`: the parser, which gives up when the stack reaches a limit.
* `Derives`: what the grammar says, as an attribute grammar whose environment is threaded.
* `Certificate`: the symbol of each state and the states before it, from which a reduction is known
  to pop the right-hand side of its rule. `run_parsed` is that the stack derives what is consumed.
* `Weights`: the parser halts on every input (`run_halts`).
* `Heights`: the stack is not much higher than the number of consumed tokens, so that a run without
  a limit (`Reaches`) is a run of the parser (`run_of_reaches`).
-/

namespace Miniob.Lib

variable {σ T N R V E : Type}

/-- What a state does with the next token. -/
inductive ShiftReduce.Move (σ R : Type)
  | shift (target : σ)
  | reduce (rule : R)
  | accept
  | error
  deriving DecidableEq

/-- How a parser ends. -/
inductive ShiftReduce.Halt (E : Type)
  | accepted (env : E)
  | rejected (env : E)
  | exhausted (env : E)
  | crashed

/-- The tables of a parser, the actions of its rules and the limit of its stack. -/
structure ShiftReduce (σ T N R V E : Type) where
  /-- The state that a parse begins in. -/
  start : σ
  /-- The action table. -/
  move : σ → T → ShiftReduce.Move σ R
  /-- The table of nonterminals. -/
  goto : σ → N → σ
  /-- The nonterminal of a rule. -/
  lhs : R → N
  /-- How many entries a rule pops. -/
  length : R → ℕ
  /-- The action of a rule, which may crash. -/
  action : R → List V → E → Option (V × E)
  /-- The token that follows the input. -/
  endMark : T
  /-- How many states the stack cannot have. -/
  limit : ℕ

namespace ShiftReduce

/-- A parser at work. The top of the stack comes first, and the start state is left out. -/
structure Config (σ T V E : Type) where
  /-- The states with their values. -/
  stack : List (σ × V)
  /-- The tokens to read. -/
  input : List (T × V)
  /-- What the actions have changed. -/
  env : E

variable (P : ShiftReduce σ T N R V E)

/-- The state on top. -/
def state : List (σ × V) → σ
  | [] => P.start
  | entry :: _ => entry.1

/-- The next token. -/
def lookahead : List (T × V) → T
  | [] => P.endMark
  | token :: _ => token.1

/-- The entries of a rule are replaced by one. -/
def reduce (r : R) (c : Config σ T V E) : Except (Halt E) (Config σ T V E) :=
  let rest := c.stack.drop (P.length r)
  match P.action r ((c.stack.take (P.length r)).map Prod.snd).reverse c.env with
  | none => .error .crashed
  | some (v, env) => .ok ⟨(P.goto (P.state rest) (P.lhs r), v) :: rest, c.input, env⟩

/-- A step, whatever the height of the stack. -/
def advance (c : Config σ T V E) : Except (Halt E) (Config σ T V E) :=
  match P.move (P.state c.stack) (P.lookahead c.input) with
  | .accept => .error (.accepted c.env)
  | .error => .error (.rejected c.env)
  | .reduce r => P.reduce r c
  | .shift q =>
    match c.input with
    | [] => .error (.rejected c.env)
    | token :: input => .ok ⟨(q, token.2) :: c.stack, input, c.env⟩

/-- A step of the parser. -/
def step (c : Config σ T V E) : Except (Halt E) (Config σ T V E) :=
  if P.limit ≤ c.stack.length + 1 then .error (.exhausted c.env) else P.advance c

/-- This many steps, or fewer if the parser halts. -/
def run : ℕ → Config σ T V E → Except (Halt E) (Config σ T V E)
  | 0, c => .ok c
  | n + 1, c => do run n (← P.step c)

@[simp] theorem state_nil : P.state [] = P.start := rfl

@[simp] theorem state_cons (entry : σ × V) (stack : List (σ × V)) :
    P.state (entry :: stack) = entry.1 := rfl

@[simp] theorem lookahead_cons (token : T × V) (input : List (T × V)) :
    P.lookahead (token :: input) = token.1 := rfl

variable {P} {c c' : Config σ T V E} {h h' : Halt E} {m n : ℕ}

theorem run_add : P.run (m + n) c = (do P.run n (← P.run m c)) := by
  induction m generalizing c with
  | zero => rw [Nat.zero_add]; rfl
  | succ m ih =>
    rw [Nat.succ_add, run, run]
    cases P.step c with
    | error h => rfl
    | ok c => exact ih

/-- A parser that has halted stays so. -/
theorem run_error_mono (hrun : P.run m c = .error h) (hmn : m ≤ n) : P.run n c = .error h := by
  obtain ⟨k, rfl⟩ := Nat.exists_eq_add_of_le hmn
  rw [run_add, hrun]
  rfl

/-- A parser halts in one way. -/
theorem run_error_inj (hm : P.run m c = .error h) (hn : P.run n c = .error h') : h = h' := by
  rcases Nat.le_total m n with hmn | hnm
  · exact Except.error.inj ((run_error_mono hm hmn).symm.trans hn)
  · exact Except.error.inj (hm.symm.trans (run_error_mono hn hnm))

theorem step_eq_ok (hstep : P.step c = .ok c') :
    c.stack.length + 1 < P.limit ∧ P.advance c = .ok c' := by
  unfold step at hstep
  split at hstep
  · cases hstep
  · exact ⟨by omega, hstep⟩

/-- A step shifts a token or reduces by a rule. -/
theorem advance_cases (hadvance : P.advance c = .ok c') :
    (∃ q token input, c.input = token :: input ∧ P.move (P.state c.stack) token.1 = .shift q ∧
      c' = ⟨(q, token.2) :: c.stack, input, c.env⟩) ∨
    ∃ r v env, P.move (P.state c.stack) (P.lookahead c.input) = .reduce r ∧
      P.action r ((c.stack.take (P.length r)).map Prod.snd).reverse c.env = some (v, env) ∧
      c' = ⟨(P.goto (P.state (c.stack.drop (P.length r))) (P.lhs r), v) ::
        c.stack.drop (P.length r), c.input, env⟩ := by
  unfold advance at hadvance
  split at hadvance
  · cases hadvance
  · cases hadvance
  · rename_i r hmove
    unfold reduce at hadvance
    dsimp only at hadvance
    split at hadvance
    · cases hadvance
    · rename_i v env haction
      cases hadvance
      exact Or.inr ⟨r, v, env, hmove, haction, rfl⟩
  · rename_i q hmove
    split at hadvance
    · cases hadvance
    · rename_i token input hinput
      cases hadvance
      rw [hinput] at hmove
      exact Or.inl ⟨q, token, input, hinput, hmove, rfl⟩

/-- A parser halts by its table, or in the action of a rule. -/
theorem advance_error_cases (hadvance : P.advance c = .error h) :
    (P.move (P.state c.stack) (P.lookahead c.input) = .accept ∧ h = .accepted c.env) ∨
      h = .rejected c.env ∨
      ∃ r, P.move (P.state c.stack) (P.lookahead c.input) = .reduce r ∧
        P.action r ((c.stack.take (P.length r)).map Prod.snd).reverse c.env = none ∧
        h = .crashed := by
  unfold advance at hadvance
  split at hadvance
  · rename_i hmove
    cases hadvance
    exact Or.inl ⟨hmove, rfl⟩
  · cases hadvance
    exact Or.inr (Or.inl rfl)
  · rename_i r hmove
    unfold reduce at hadvance
    dsimp only at hadvance
    split at hadvance
    · rename_i haction
      cases hadvance
      exact Or.inr (Or.inr ⟨r, hmove, haction, rfl⟩)
    · cases hadvance
  · split at hadvance <;> cases hadvance
    exact Or.inr (Or.inl rfl)

/-! ## The grammar -/

/-- The symbols yield the tokens, with these values, from the one environment to the other one. The
actions run in the order in which their right-hand sides end. -/
inductive Derives (P : ShiftReduce σ T N R V E) (rhs : R → List (Symbol T N)) :
    List (Symbol T N) → List (T × V) → List V → E → E → Prop
  | nil (e : E) : Derives P rhs [] [] [] e e
  | token (t : T) (v : V) {ss w vs e e'} (tail : Derives P rhs ss w vs e e') :
      Derives P rhs (.terminal t :: ss) ((t, v) :: w) (v :: vs) e e'
  | rule (r : R) {u us v ss w vs e e₁ e₂ e'} (body : Derives P rhs (rhs r) u us e e₁)
      (action : P.action r us e₁ = some (v, e₂)) (tail : Derives P rhs ss w vs e₂ e') :
      Derives P rhs (.nonterminal (P.lhs r) :: ss) (u ++ w) (v :: vs) e e'

namespace Derives

variable {rhs : R → List (Symbol T N)} {ss ss' : List (Symbol T N)} {w w' : List (T × V)}
  {vs vs' : List V} {e e₁ e' : E}

theorem length_eq (hd : Derives P rhs ss w vs e e') : vs.length = ss.length := by
  induction hd with
  | nil e => rfl
  | token t v tail ih => rw [List.length_cons, List.length_cons, ih]
  | rule r body action tail _ ih => rw [List.length_cons, List.length_cons, ih]

theorem append (hd : Derives P rhs ss w vs e e₁) (hd' : Derives P rhs ss' w' vs' e₁ e') :
    Derives P rhs (ss ++ ss') (w ++ w') (vs ++ vs') e e' := by
  induction hd with
  | nil e => exact hd'
  | token t v tail ih => exact .token t v (ih hd')
  | rule r body action tail _ ih =>
    rw [List.append_assoc]
    exact .rule r body action (ih hd')

/-- Symbols in a row yield tokens in a row. -/
theorem split (hd : Derives P rhs (ss ++ ss') w vs e e') :
    ∃ w₁ w₂ vs₁ vs₂ e₁, w = w₁ ++ w₂ ∧ vs = vs₁ ++ vs₂ ∧ Derives P rhs ss w₁ vs₁ e e₁ ∧
      Derives P rhs ss' w₂ vs₂ e₁ e' := by
  induction ss generalizing w vs e with
  | nil => exact ⟨[], w, [], vs, e, rfl, rfl, .nil e, hd⟩
  | cons s ss ih =>
    cases hd with
    | token t v tail =>
      obtain ⟨w₁, w₂, vs₁, vs₂, e₁, rfl, rfl, hd₁, hd₂⟩ := ih tail
      exact ⟨(t, v) :: w₁, w₂, v :: vs₁, vs₂, e₁, rfl, rfl, .token t v hd₁, hd₂⟩
    | rule r body action tail =>
      obtain ⟨w₁, w₂, vs₁, vs₂, e₁, rfl, rfl, hd₁, hd₂⟩ := ih tail
      exact ⟨_, w₂, _, vs₂, e₁, (List.append_assoc _ _ _).symm, rfl, .rule r body action hd₁, hd₂⟩

end Derives

/-! ## The stack -/

/-- What is known of the states. -/
structure Known (σ T N : Type) where
  /-- The symbol by which the state is entered. -/
  symbol : σ → Symbol T N
  /-- The states that it is entered from. -/
  prev : σ → List σ

namespace Known

variable (K : Known σ T N)

/-- From this state the symbols can be popped, the first one first, and what is asked holds of the
state below, whatever the stack is. -/
def pops [DecidableEq T] [DecidableEq N] (after : σ → Bool) : List (Symbol T N) → σ → Bool
  | [], q => after q
  | s :: ss, q =>
    decide (K.symbol q = s) && !(K.prev q).isEmpty && (K.prev q).all fun p => pops after ss p

/-- The state on top can be entered from this one by the nonterminal. -/
def entered [DecidableEq σ] [DecidableEq T] [DecidableEq N] (P : ShiftReduce σ T N R V E) (n : N)
    (p : σ) : Bool :=
  decide (K.symbol (P.goto p n) = .nonterminal n) && decide (p ∈ K.prev (P.goto p n))

/-- Every state is entered from the one below it. -/
def Path (P : ShiftReduce σ T N R V E) : List (σ × V) → Prop
  | [] => True
  | entry :: stack => P.state stack ∈ K.prev entry.1 ∧ Path P stack

/-- The symbols on a stack, the top first. -/
def symbols (stack : List (σ × V)) : List (Symbol T N) := stack.map fun entry => K.symbol entry.1

variable {K} {P : ShiftReduce σ T N R V E} {stack : List (σ × V)}

@[simp] theorem symbols_cons (entry : σ × V) :
    K.symbols (entry :: stack) = K.symbol entry.1 :: K.symbols stack := rfl

@[simp] theorem length_symbols : (K.symbols stack).length = stack.length := List.length_map _

theorem symbols_append {stack' : List (σ × V)} :
    K.symbols (stack ++ stack') = K.symbols stack ++ K.symbols stack' := List.map_append

theorem Path.drop (hpath : K.Path P stack) (n : ℕ) : K.Path P (stack.drop n) := by
  induction n generalizing stack with
  | zero => exact hpath
  | succ n ih =>
    cases stack with
    | nil => exact hpath
    | cons entry stack => exact ih hpath.2

variable [DecidableEq T] [DecidableEq N]

/-- What can be popped from a state is popped from every stack that it is on top of. -/
theorem Path.pops_spec {after : σ → Bool} {ss : List (Symbol T N)} (hstart : K.prev P.start = [])
    (hpath : K.Path P stack) (hpops : K.pops after ss (P.state stack) = true) :
    K.symbols (stack.take ss.length) = ss ∧ after (P.state (stack.drop ss.length)) = true := by
  induction ss generalizing stack with
  | nil => exact ⟨rfl, hpops⟩
  | cons s ss ih =>
    simp only [pops, Bool.and_eq_true, decide_eq_true_eq, Bool.not_eq_true', List.all_eq_true,
      List.isEmpty_eq_false_iff] at hpops
    obtain ⟨⟨hsymbol, hne⟩, hall⟩ := hpops
    cases stack with
    | nil => exact absurd hstart hne
    | cons entry stack =>
      obtain ⟨htake, hafter⟩ := ih hpath.2 (hall _ hpath.1)
      refine ⟨?_, hafter⟩
      rw [List.length_cons, List.take_succ_cons, symbols_cons]
      exact congrArg₂ _ hsymbol htake

end Known

/-- Popping the right-hand side of a rule from any stack leads to a state that knows its
nonterminal. -/
structure Certificate [DecidableEq σ] [DecidableEq T] [DecidableEq N]
    (P : ShiftReduce σ T N R V E) (rhs : R → List (Symbol T N)) extends Known σ T N where
  prev_start : prev P.start = []
  shift_spec : ∀ q t q', P.move q t = .shift q' → symbol q' = .terminal t ∧ q ∈ prev q'
  length_eq : ∀ q t r, P.move q t = .reduce r → P.length r = (rhs r).length
  reduce_spec : ∀ q t r, P.move q t = .reduce r →
    toKnown.pops (toKnown.entered P (P.lhs r)) (rhs r).reverse q = true

section certified

variable [DecidableEq σ] [DecidableEq T] [DecidableEq N] {rhs : R → List (Symbol T N)}
  {C : Certificate P rhs} {input : List (T × V)} {e₀ : E}

/-- The stack derives the tokens that are consumed. -/
structure Parsed (C : Certificate P rhs) (input : List (T × V)) (e₀ : E)
    (c : Config σ T V E) : Prop where
  path : C.Path P c.stack
  derives : ∃ consumed, input = consumed ++ c.input ∧
    Derives P rhs (C.symbols c.stack).reverse consumed (c.stack.map Prod.snd).reverse e₀ c.env

theorem parsed_init : Parsed C input e₀ ⟨[], input, e₀⟩ :=
  ⟨trivial, [], rfl, .nil e₀⟩

/-- What a reduction pops is the right-hand side of its rule. -/
theorem Certificate.reduced {r : R} {t : T} {stack : List (σ × V)} (hpath : C.Path P stack)
    (hmove : P.move (P.state stack) t = .reduce r) :
    (C.symbols (stack.take (P.length r))).reverse = rhs r ∧
      C.symbol (P.goto (P.state (stack.drop (P.length r))) (P.lhs r)) = .nonterminal (P.lhs r) ∧
      P.state (stack.drop (P.length r)) ∈
        C.prev (P.goto (P.state (stack.drop (P.length r))) (P.lhs r)) := by
  have hpops := hpath.pops_spec C.prev_start (C.reduce_spec _ _ _ hmove)
  rw [List.length_reverse, ← C.length_eq _ _ _ hmove] at hpops
  obtain ⟨hsymbols, hentered⟩ := hpops
  rw [Known.entered, Bool.and_eq_true, decide_eq_true_eq, decide_eq_true_eq] at hentered
  exact ⟨by rw [hsymbols, List.reverse_reverse], hentered⟩

/-- What a reduction pops derives the last tokens, and what stays derives the others. -/
theorem Parsed.split_reduced (hparsed : Parsed C input e₀ c) {r : R} {t : T}
    (hmove : P.move (P.state c.stack) t = .reduce r) :
    ∃ w₁ w₂ e₁, input = w₁ ++ w₂ ++ c.input ∧
      Derives P rhs (C.symbols (c.stack.drop (P.length r))).reverse w₁
        ((c.stack.drop (P.length r)).map Prod.snd).reverse e₀ e₁ ∧
      Derives P rhs (rhs r) w₂ ((c.stack.take (P.length r)).map Prod.snd).reverse e₁ c.env := by
  obtain ⟨hpath, consumed, rfl, hderives⟩ := hparsed
  obtain ⟨hrhs, -⟩ := C.reduced hpath hmove
  have hstack := List.take_append_drop (P.length r) c.stack
  rw [← hstack, Known.symbols_append, List.reverse_append, List.map_append,
    List.reverse_append] at hderives
  obtain ⟨w₁, w₂, vs₁, vs₂, e₁, rfl, hvs, hrest, hbody⟩ := hderives.split
  have hlen : vs₁.length = (((c.stack.drop (P.length r)).map Prod.snd).reverse).length := by
    rw [hrest.length_eq]
    simp
  obtain ⟨rfl, rfl⟩ := List.append_inj hvs hlen.symm
  rw [hrhs] at hbody
  exact ⟨w₁, w₂, e₁, rfl, hrest, hbody⟩

theorem advance_parsed (hparsed : Parsed C input e₀ c) (hadvance : P.advance c = .ok c') :
    Parsed C input e₀ c' := by
  rcases advance_cases hadvance with
    ⟨q, token, rest, hinput, hmove, rfl⟩ | ⟨r, v, env, hmove, haction, rfl⟩
  · obtain ⟨hpath, consumed, rfl, hderives⟩ := hparsed
    obtain ⟨hsymbol, hprev⟩ := C.shift_spec _ _ _ hmove
    refine ⟨⟨hprev, hpath⟩, consumed ++ [token], ?_, ?_⟩
    · rw [hinput, List.append_assoc]
      rfl
    · rw [Known.symbols_cons, List.reverse_cons, List.map_cons, List.reverse_cons, hsymbol]
      exact hderives.append (.token token.1 token.2 (.nil c.env))
  · obtain ⟨-, hsymbol, hprev⟩ := C.reduced hparsed.path hmove
    obtain ⟨w₁, w₂, e₁, hinput, hrest, hbody⟩ := hparsed.split_reduced hmove
    refine ⟨⟨hprev, hparsed.path.drop _⟩, w₁ ++ w₂, hinput, ?_⟩
    have hrule := hrest.append (Derives.rule r hbody haction (.nil env))
    rw [List.append_nil] at hrule
    rw [Known.symbols_cons, List.reverse_cons, List.map_cons, List.reverse_cons, hsymbol]
    exact hrule

/-- **Whatever a parser has done**, its stack derives what it has consumed. -/
theorem run_parsed (hparsed : Parsed C input e₀ c) (hrun : P.run n c = .ok c') :
    Parsed C input e₀ c' := by
  induction n generalizing c with
  | zero => exact Except.ok.inj hrun ▸ hparsed
  | succ n ih =>
    rw [run] at hrun
    cases hstep : P.step c with
    | error h =>
      rw [hstep] at hrun
      cases hrun
    | ok c₁ =>
      rw [hstep] at hrun
      exact ih (advance_parsed hparsed (step_eq_ok hstep).2) hrun

/-- A parser halts where its stack derives what it has consumed. -/
theorem run_error_parsed (hparsed : Parsed C input e₀ c) (hrun : P.run n c = .error h) :
    ∃ m c', P.run m c = .ok c' ∧ Parsed C input e₀ c' ∧ P.step c' = .error h := by
  induction n generalizing c with
  | zero => cases hrun
  | succ n ih =>
    rw [run] at hrun
    cases hstep : P.step c with
    | error h' =>
      rw [hstep] at hrun
      cases hrun
      exact ⟨0, c, rfl, hparsed, hstep⟩
    | ok c₁ =>
      rw [hstep] at hrun
      obtain ⟨m, c', hm, hrest⟩ := ih (advance_parsed hparsed (step_eq_ok hstep).2) hrun
      refine ⟨m + 1, c', ?_, hrest⟩
      rw [run, hstep]
      exact hm

/-! ## Halting -/

/-- Every step makes a stack heavier, up to what a token is worth. -/
structure Weights (C : Certificate P rhs) where
  /-- The weight of an entry. -/
  weight : Symbol T N → ℤ
  /-- The worth of a token. -/
  credit : ℕ
  /-- The greatest weight. -/
  bound : ℕ
  le_bound : ∀ s, weight s ≤ bound
  terminal_spec : ∀ t, 1 ≤ weight (.terminal t) + credit
  rule_spec : ∀ r, ((rhs r).map weight).sum + 1 ≤ weight (.nonterminal (P.lhs r))

namespace Weights

variable (W : Weights C)

/-- What a parser can still do. -/
def potential (c : Config σ T V E) : ℤ :=
  W.credit * c.input.length + W.bound * P.limit - ((C.symbols c.stack).map W.weight).sum

/-- This many steps are enough. -/
def fuel (input : List (T × V)) : ℕ := W.credit * input.length + W.bound * P.limit + 2

variable {W}

theorem potential_nonneg (hlimit : c.stack.length + 1 < P.limit) : 0 ≤ W.potential c := by
  have hsum : ((C.symbols c.stack).map W.weight).sum ≤ c.stack.length * (W.bound : ℤ) := by
    have := List.sum_le_card_nsmul ((C.symbols c.stack).map W.weight) W.bound (by
      intro x hx
      obtain ⟨s, -, rfl⟩ := List.mem_map.mp hx
      exact W.le_bound s)
    simpa using this
  have hle : (c.stack.length : ℤ) * W.bound ≤ W.bound * P.limit := by
    rw [mul_comm]
    exact_mod_cast Nat.mul_le_mul_left W.bound (by omega : c.stack.length ≤ P.limit)
  have hcredit : (0 : ℤ) ≤ W.credit * c.input.length := by
    exact_mod_cast Nat.zero_le (W.credit * c.input.length)
  unfold potential
  linarith

theorem potential_advance (hparsed : Parsed C input e₀ c) (hadvance : P.advance c = .ok c') :
    W.potential c' + 1 ≤ W.potential c := by
  rcases advance_cases hadvance with
    ⟨q, token, rest, hinput, hmove, rfl⟩ | ⟨r, v, env, hmove, haction, rfl⟩
  · have hsymbol := (C.shift_spec _ _ _ hmove).1
    have := W.terminal_spec token.1
    unfold potential
    rw [hinput, Known.symbols_cons, hsymbol, List.map_cons, List.sum_cons, List.length_cons]
    push_cast
    linarith
  · obtain ⟨hrhs, hsymbol, -⟩ := C.reduced hparsed.path hmove
    have hsum : ((C.symbols c.stack).map W.weight).sum = ((rhs r).map W.weight).sum +
        ((C.symbols (c.stack.drop (P.length r))).map W.weight).sum := by
      rw [← hrhs, List.map_reverse, List.sum_reverse, ← List.sum_append, ← List.map_append,
        ← Known.symbols_append, List.take_append_drop]
    have := W.rule_spec r
    unfold potential
    rw [hsum, Known.symbols_cons, hsymbol, List.map_cons, List.sum_cons]
    dsimp only
    linarith

/-- **A parser halts** on every input. -/
theorem run_halts (hparsed : Parsed C input e₀ c) (hn : W.potential c < n) :
    ∃ h, P.run (n + 1) c = .error h := by
  induction n generalizing c with
  | zero =>
    have hlimit : P.limit ≤ c.stack.length + 1 := by
      by_contra hlt
      have := potential_nonneg (W := W) (not_le.mp hlt)
      omega
    refine ⟨.exhausted c.env, ?_⟩
    rw [run, step, if_pos hlimit]
    rfl
  | succ n ih =>
    rw [run]
    cases hstep : P.step c with
    | error h => exact ⟨h, rfl⟩
    | ok c₁ =>
      have hadvance := (step_eq_ok hstep).2
      have := W.potential_advance hparsed hadvance
      exact ih (advance_parsed hparsed hadvance) (by push_cast at hn; omega)

theorem run_fuel (W : Weights C) (input : List (T × V)) (e₀ : E) :
    ∃ h, P.run (W.fuel input) ⟨[], input, e₀⟩ = .error h := by
  apply run_halts (W := W) parsed_init
  unfold potential
  simp [Known.symbols]

end Weights

/-! ## Runs without a limit -/

/-- How many entries that yield nothing a stack can have. -/
structure Heights (C : Certificate P rhs) where
  /-- The symbol may yield nothing. -/
  nullable : Symbol T N → Bool
  /-- How many such entries are below the top of a stack, with the top. -/
  slack : σ → ℕ
  /-- The greatest slack. -/
  bound : ℕ
  le_bound : ∀ q, slack q ≤ bound
  rule_spec : ∀ r us e, (P.action r us e).isSome = true → (rhs r).all nullable = true →
    nullable (.nonterminal (P.lhs r)) = true
  slack_spec : ∀ q, ∀ p ∈ C.prev q, slack p + (nullable (C.symbol q)).toNat ≤ slack q

namespace Heights

variable {H : Heights C}

theorem countP_path {stack : List (σ × V)} (hpath : C.Path P stack) :
    (C.symbols stack).countP H.nullable ≤ H.slack (P.state stack) := by
  induction stack with
  | nil => exact Nat.zero_le _
  | cons entry stack ih =>
    have hstack := ih hpath.2
    have hslack := H.slack_spec _ _ hpath.1
    rw [Known.symbols_cons, List.countP_cons, P.state_cons]
    cases hnullable : H.nullable (C.symbol entry.1) with
    | true =>
      rw [hnullable, Bool.toNat_true] at hslack
      rw [if_pos rfl]
      omega
    | false =>
      rw [hnullable, Bool.toNat_false] at hslack
      rw [if_neg Bool.false_ne_true]
      omega

theorem countP_derives {ss : List (Symbol T N)} {w : List (T × V)} {vs : List V} {e e' : E}
    (hd : Derives P rhs ss w vs e e') : ss.countP (fun s => !H.nullable s) ≤ w.length := by
  induction hd with
  | nil e => exact le_rfl
  | token t v tail ih =>
    rw [List.countP_cons, List.length_cons]
    split <;> omega
  | rule r body action tail hbody htail =>
    rw [List.countP_cons, List.length_append]
    cases hnullable : H.nullable (.nonterminal (P.lhs r)) with
    | true =>
      simp only [Bool.not_true, Bool.false_eq_true, ↓reduceIte]
      omega
    | false =>
      have hpos : 0 < (rhs r).countP fun s => !H.nullable s := by
        rw [List.countP_pos_iff]
        by_contra hall
        push Not at hall
        have := H.rule_spec r _ _ (by rw [action]; rfl)
          (List.all_eq_true.mpr fun s hs => by simpa using hall s hs)
        rw [hnullable] at this
        cases this
      simp only [Bool.not_false, ↓reduceIte]
      omega

/-- A stack is not much higher than the number of tokens that are consumed. -/
theorem length_le (H : Heights C) (hparsed : Parsed C input e₀ c) :
    c.stack.length + c.input.length ≤ input.length + H.bound := by
  obtain ⟨hpath, consumed, rfl, hderives⟩ := hparsed
  have hnull := (countP_path (H := H) hpath).trans (H.le_bound _)
  have hfull := countP_derives (H := H) hderives
  have hlength := List.length_eq_countP_add_countP H.nullable (l := C.symbols c.stack)
  have hnot : (C.symbols c.stack).countP (fun s => decide (¬ H.nullable s = true)) =
      (C.symbols c.stack).countP fun s => !H.nullable s := by
    congr 1
    funext s
    cases H.nullable s <;> rfl
  rw [List.countP_reverse] at hfull
  rw [Known.length_symbols, hnot] at hlength
  rw [List.length_append]
  omega

end Heights

/-- Steps without a limit lead from the one to the other. -/
def Reaches (P : ShiftReduce σ T N R V E) : Config σ T V E → Config σ T V E → Prop :=
  Relation.ReflTransGen fun c c' => P.advance c = .ok c'

omit [DecidableEq σ] [DecidableEq T] [DecidableEq N] in
theorem Reaches.length_le (hreaches : P.Reaches c c') : c'.input.length ≤ c.input.length := by
  induction hreaches with
  | refl => exact le_rfl
  | tail _ hadvance ih =>
    rcases advance_cases hadvance with
      ⟨q, token, rest, hinput, hmove, rfl⟩ | ⟨r, v, env, hmove, haction, rfl⟩
    · rw [hinput, List.length_cons] at ih
      exact (Nat.le_succ _).trans ih
    · exact ih

/-- **The limit is not reached** where few tokens are consumed. -/
theorem run_of_reaches (H : Heights C) (hparsed : Parsed C input e₀ c) (hreaches : P.Reaches c c')
    (hshort : input.length + H.bound + 1 < c'.input.length + P.limit) :
    ∃ n, P.run n c = .ok c' := by
  induction hreaches using Relation.ReflTransGen.head_induction_on with
  | refl => exact ⟨0, rfl⟩
  | head hadvance hreaches ih =>
    rename_i c c₁
    have hparsed' := advance_parsed hparsed hadvance
    obtain ⟨n, hn⟩ := ih hparsed'
    refine ⟨n + 1, ?_⟩
    have hlength := H.length_le hparsed
    have hinput := Reaches.length_le (Relation.ReflTransGen.head hadvance hreaches)
    have hstep : P.step c = .ok c₁ := by
      rw [step, if_neg (by omega), hadvance]
    rw [run, hstep]
    exact hn

/-- A run without a limit ends as the parser does. -/
theorem run_error_of_reaches (H : Heights C) (hparsed : Parsed C input e₀ c)
    (hreaches : P.Reaches c c') (hhalt : P.advance c' = .error h)
    (hshort : input.length + H.bound + 1 < c'.input.length + P.limit) :
    ∃ n, P.run n c = .error h := by
  obtain ⟨n, hn⟩ := run_of_reaches H hparsed hreaches hshort
  have hlength := H.length_le (run_parsed hparsed hn)
  refine ⟨n + 1, ?_⟩
  rw [run_add, hn]
  have hstep : P.step c' = .error h := by rw [step, if_neg (by omega), hhalt]
  exact congrArg (fun x => x >>= P.run 0) hstep

end certified

section reaches

variable {stack : List (σ × V)} {input : List (T × V)} {e e' : E} {q : σ} {t : T} {v : V} {r : R}

theorem Reaches.trans {c₁ : Config σ T V E} (hreaches : P.Reaches c c₁)
    (hreaches' : P.Reaches c₁ c') : P.Reaches c c' :=
  Relation.ReflTransGen.trans hreaches hreaches'

theorem Reaches.refl (c : Config σ T V E) : P.Reaches c c := Relation.ReflTransGen.refl

/-- A token is shifted first. -/
theorem shift_then (hmove : P.move (P.state stack) t = .shift q)
    (hreaches : P.Reaches ⟨(q, v) :: stack, input, e⟩ c) :
    P.Reaches ⟨stack, (t, v) :: input, e⟩ c := by
  refine Relation.ReflTransGen.head ?_ hreaches
  rw [advance, lookahead_cons, hmove]

/-- The entries on top are reduced first. -/
theorem reduce_then (top : List (σ × V))
    (hmove : P.move (P.state (top ++ stack)) (P.lookahead input) = .reduce r)
    (hlength : P.length r = top.length)
    (haction : P.action r (top.map Prod.snd).reverse e = some (v, e'))
    (hgoto : P.goto (P.state stack) (P.lhs r) = q)
    (hreaches : P.Reaches ⟨(q, v) :: stack, input, e'⟩ c) :
    P.Reaches ⟨top ++ stack, input, e⟩ c := by
  refine Relation.ReflTransGen.head ?_ hreaches
  rw [advance, hmove]
  simp only [reduce, hlength, List.drop_left, List.take_left, haction, hgoto]

end reaches

end ShiftReduce

end Miniob.Lib
