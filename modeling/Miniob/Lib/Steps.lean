import Mathlib.Data.List.Basic

/-!
# Runs whose steps meet a condition

A partial step function and a condition on a step that is about the state before it. A run is the
`List.foldlM` of the steps.

* `AllSteps`: all steps of a run meet the condition.
* `AllSteps.invariant`: what such steps keep holds at the end of the run.
-/

namespace Miniob.Lib

variable {σ α : Type} {step : σ → α → Option σ} {cond cond' : σ → α → Prop}

/-- All steps of a run meet the condition. -/
def AllSteps (step : σ → α → Option σ) (cond : σ → α → Prop) : List α → σ → Prop
  | [], _ => True
  | a :: as, s => cond s a ∧ ∀ s', step s a = some s' → AllSteps step cond as s'

/-- The condition is checked along the run. -/
instance decidableAllSteps [∀ s a, Decidable (cond s a)] :
    (as : List α) → (s : σ) → Decidable (AllSteps step cond as s)
  | [], _ => inferInstanceAs (Decidable True)
  | a :: as, s =>
    have : Decidable (∀ s', step s a = some s' → AllSteps step cond as s') :=
      match hstep : step s a with
      | none => isTrue fun s' h => by cases h
      | some s₁ =>
        have := decidableAllSteps as s₁
        decidable_of_iff (AllSteps step cond as s₁)
          ⟨fun h s' heq => Option.some.inj heq ▸ h, fun h => h s₁ rfl⟩
    inferInstanceAs (Decidable (_ ∧ _))

theorem AllSteps.and {as : List α} {s : σ} (h : AllSteps step cond as s)
    (h' : AllSteps step cond' as s) : AllSteps step (fun s a => cond s a ∧ cond' s a) as s := by
  induction as generalizing s with
  | nil => trivial
  | cons a as ih => exact ⟨⟨h.1, h'.1⟩, fun s' hstep => ih (h.2 s' hstep) (h'.2 s' hstep)⟩

/-- The last step meets the condition in the state that the run has come to. -/
theorem AllSteps.last {a : α} {as : List α} {s s' : σ} (h : AllSteps step cond (as ++ [a]) s)
    (hrun : as.foldlM step s = some s') : AllSteps step cond as s ∧ cond s' a := by
  induction as generalizing s with
  | nil =>
    cases hrun
    exact ⟨trivial, h.1⟩
  | cons b as ih =>
    rw [List.foldlM_cons] at hrun
    obtain ⟨s₁, hstep, hrest⟩ := Option.bind_eq_some_iff.mp hrun
    obtain ⟨hall, hlast⟩ := ih (h.2 s₁ hstep) hrest
    refine ⟨⟨h.1, fun s₂ hstep₂ => ?_⟩, hlast⟩
    cases hstep.symm.trans hstep₂
    exact hall

/-- What the steps keep that meet the condition holds at the end of the run. -/
theorem AllSteps.invariant {as : List α} {s s' : σ} (h : AllSteps step cond as s) (Inv : σ → Prop)
    (hrun : as.foldlM step s = some s')
    (hkeep : ∀ s a s', Inv s → cond s a → step s a = some s' → Inv s') (hs : Inv s) : Inv s' := by
  induction as generalizing s with
  | nil =>
    cases hrun
    exact hs
  | cons a as ih =>
    rw [List.foldlM_cons] at hrun
    obtain ⟨s₁, hstep, hrest⟩ := Option.bind_eq_some_iff.mp hrun
    exact ih (h.2 s₁ hstep) hrest (hkeep s a s₁ hs h.1 hstep)

end Miniob.Lib
