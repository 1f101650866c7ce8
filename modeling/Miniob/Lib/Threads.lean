import Mathlib.Algebra.BigOperators.Group.Finset.Piecewise
import Mathlib.Algebra.Order.BigOperators.Group.Finset
import Mathlib.Data.Fintype.BigOperators

/-!
# Threads, condition variables and runs

Finitely many threads stand at places of their own: `places : T → L`. A step moves one of them and
may wake another.

* `total f places`: the sum of a weight over the threads. `total_update` is how it changes when one
  thread moves, which is all that counting arguments over interleavings need.
* `Woken`, `Signals`: what waking a thread and signalling a condition variable do. `wake` says
  which places wait for the condition and where a thread that stood there stands after.
* `Runs step init tr s`: the labels `tr` lead from `init` to `s`, with `Runs.inv` as the invariant
  rule.
-/

namespace Miniob.Lib

variable {T L : Type}

/-! ## Weights -/

section Total

variable [Fintype T] (f : L → ℕ) (places : T → L) (t : T)

/-- The sum of a weight over all threads. -/
def total : ℕ := ∑ t, f (places t)

theorem le_total : f (places t) ≤ total f places := by
  apply Finset.single_le_sum (f := fun t => f (places t))
  · exact fun _ _ => Nat.zero_le _
  · exact Finset.mem_univ t

theorem total_eq_zero_iff : total f places = 0 ↔ ∀ t, f (places t) = 0 := by
  unfold total
  rw [Finset.sum_eq_zero_iff]
  simp

/-- One thread has moved. -/
theorem total_update [DecidableEq T] (l : L) :
    total f (Function.update places t l) + f (places t) = total f places + f l := by
  have hout : ∀ ls : T → L, (∀ u, u ≠ t → ls u = places u) →
      total f ls = f (ls t) + ∑ u ∈ Finset.univ.erase t, f (places u) := by
    intro ls hls
    unfold total
    rw [← Finset.add_sum_erase _ _ (Finset.mem_univ t)]
    congr 1
    apply Finset.sum_congr rfl
    intro u hu
    rw [hls u (Finset.ne_of_mem_erase hu)]
  rw [hout _ fun u hu => Function.update_of_ne hu _ _, hout places fun _ _ => rfl,
    Function.update_self]
  omega

end Total

/-! ## Condition variables -/

section Condition

variable [DecidableEq T] {wake : L → Option L} {places places' : T → L} {t : T}

variable (wake places places') in
/-- One thread that waits is woken. -/
def Woken : Prop :=
  ∃ t l, wake (places t) = some l ∧ places' = Function.update places t l

variable (wake places places') in
/-- The condition is signalled: one thread that waits is woken, if there is one. -/
def Signals : Prop :=
  Woken wake places places' ∨ (∀ t, wake (places t) = none) ∧ places' = places

/-- A thread that does not wait stays where it is. -/
theorem Woken.apply_eq (h : Woken wake places places') (ht : wake (places t) = none) :
    places' t = places t := by
  obtain ⟨u, l, hu, rfl⟩ := h
  rw [Function.update_of_ne]
  rintro rfl
  rw [ht] at hu
  cases hu

theorem Signals.apply_eq (h : Signals wake places places') (ht : wake (places t) = none) :
    places' t = places t := by
  obtain h | ⟨-, rfl⟩ := h
  · exact h.apply_eq ht
  · rfl

/-- What waking does not change is constant. -/
theorem Woken.map_eq {β : Type} {f : L → β} (h : Woken wake places places')
    (hf : ∀ l l', wake l = some l' → f l' = f l) (t : T) : f (places' t) = f (places t) := by
  obtain ⟨u, l, hu, rfl⟩ := h
  obtain rfl | hne := eq_or_ne t u
  · rw [Function.update_self, hf _ _ hu]
  · rw [Function.update_of_ne hne]

theorem Signals.map_eq {β : Type} {f : L → β} (h : Signals wake places places')
    (hf : ∀ l l', wake l = some l' → f l' = f l) (t : T) : f (places' t) = f (places t) := by
  obtain h | ⟨-, rfl⟩ := h
  · exact h.map_eq hf t
  · rfl

end Condition

/-! ## Runs -/

section Runs

variable {State Label : Type} {step : State → Label → State → Prop} {init s s' : State}
  {tr : List Label} {l : Label}

variable (step init) in
/-- The states that steps lead to, with the labels of the steps in their order. -/
inductive Runs : List Label → State → Prop
  /-- No step. -/
  | start : Runs [] init
  /-- One more step. -/
  | next {tr : List Label} {s s' : State} {l : Label} (hr : Runs tr s) (hs : step s l s') :
    Runs (tr ++ [l]) s'

/-- What holds at the start and is kept by each step holds after every run. -/
theorem Runs.inv {P : List Label → State → Prop} (hr : Runs step init tr s) (h0 : P [] init)
    (hstep : ∀ tr s l s', P tr s → step s l s' → P (tr ++ [l]) s') : P tr s := by
  induction hr with
  | start => exact h0
  | next _ hs ih => exact hstep _ _ _ _ ih hs

end Runs

end Miniob.Lib
