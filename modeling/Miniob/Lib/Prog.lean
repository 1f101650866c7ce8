import Mathlib.Logic.Function.Basic
import Mathlib.Data.List.Basic

/-!
# Programs over a call signature

A program that talks to a component it does not own is a tree of calls: `Prog F α` is the free
monad over a signature `F : Type → Type` (`F β` is a call whose answer has type `β`), with one
extra leaf `stop` for a failed assertion. A *handler* says what a call answers and how it changes
a state; `run` interprets a program under a handler.

* `run_bind`: running a sequence is running its parts.
* `run_rel`: **the simulation rule.** If two handlers give equal answers and keep a relation
  between their states on every call, they give equal answers on every program.

One program can so be read under several handlers (a flat array of pages, an array with dirty
flags, an array with evictions) without being written twice.
-/

namespace Miniob.Lib

/-- Programs over the call signature `F` with a result in `α`. -/
inductive Prog (F : Type → Type) (α : Type) : Type 1
  /-- The program has ended with the result `a`. -/
  | ret (a : α) : Prog F α
  /-- Make the call `c` and go on with its answer. -/
  | call {β : Type} (c : F β) (k : β → Prog F α) : Prog F α
  /-- An assertion has failed: the program ends without a result. -/
  | stop : Prog F α

/-- What a call answers and the state it leaves. -/
abbrev Handler (F : Type → Type) (σ : Type) : Type 1 := (β : Type) → F β → σ → β × σ

namespace Prog

variable {F : Type → Type} {α β γ σ τ : Type}

/-- Sequencing. -/
def bind : Prog F α → (α → Prog F β) → Prog F β
  | ret a, f => f a
  | call c k, f => call c fun b => bind (k b) f
  | stop, _ => stop

instance : Monad (Prog F) where
  pure := ret
  bind := bind

/-- A single call as a program. -/
def lift (c : F β) : Prog F β := call c ret

/-- Run a program under a handler. -/
def run (h : Handler F σ) : Prog F α → σ → Option (α × σ)
  | ret a, s => some (a, s)
  | call c k, s => run h (k (h _ c s).1) (h _ c s).2
  | stop, _ => none

@[simp] theorem run_pure (h : Handler F σ) (a : α) (s : σ) :
    run h (pure a) s = some (a, s) := rfl

@[simp] theorem run_stop (h : Handler F σ) (s : σ) : run h (stop : Prog F α) s = none := rfl

@[simp] theorem run_lift (h : Handler F σ) (c : F β) (s : σ) :
    run h (lift c) s = some (h _ c s) := rfl

/-- Running a sequence is running its parts. -/
@[simp] theorem run_bind (h : Handler F σ) (x : Prog F α) (f : α → Prog F β) (s : σ) :
    run h (x >>= f) s = (run h x s).bind fun r => run h (f r.1) r.2 := by
  induction x generalizing s with
  | ret a => rfl
  | call c k ih => exact ih _ _
  | stop => rfl

/-- `pure` is neutral on the right. -/
theorem bind_ret (x : Prog F α) : bind x ret = x := by
  induction x with
  | ret a => rfl
  | call c k ih => simp only [bind, ih]
  | stop => rfl

/-- Sequencing is associative. -/
theorem bind_assoc (x : Prog F α) (f : α → Prog F β) (g : β → Prog F γ) :
    bind (bind x f) g = bind x fun a => bind (f a) g := by
  induction x with
  | ret a => rfl
  | call c k ih => simp only [bind, ih]
  | stop => rfl

instance : LawfulMonad (Prog F) := LawfulMonad.mk' _
  (fun x => bind_ret x)
  (fun _ _ => rfl)
  (fun x f g => bind_assoc x f g)

/-- **The simulation rule.** Two handlers that answer alike on related states, and keep the
relation, answer alike on every program. -/
theorem run_rel {h₁ : Handler F σ} {h₂ : Handler F τ} {R : σ → τ → Prop}
    (hR : ∀ (δ : Type) (c : F δ) (s : σ) (t : τ), R s t →
      (h₁ δ c s).1 = (h₂ δ c t).1 ∧ R (h₁ δ c s).2 (h₂ δ c t).2)
    (x : Prog F α) {s : σ} {t : τ} (hst : R s t) :
    (run h₁ x s = none ∧ run h₂ x t = none) ∨
      ∃ a s' t', run h₁ x s = some (a, s') ∧ run h₂ x t = some (a, t') ∧ R s' t' := by
  induction x generalizing s t with
  | ret a => exact Or.inr ⟨a, s, t, rfl, rfl, hst⟩
  | call c k ih =>
      obtain ⟨heq, hnext⟩ := hR _ c s t hst
      simp only [run]
      rw [heq]
      exact ih _ hnext
  | stop => exact Or.inl ⟨rfl, rfl⟩

end Prog

end Miniob.Lib
