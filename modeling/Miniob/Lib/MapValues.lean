import Mathlib.Data.Multiset.Filter
import Mathlib.Logic.Function.Basic

/-!
# The values of a map

A partial map with finitely many keys, seen as the multiset of its values: what is left of it when
nobody asks where a value is.

* `ValuesOf`: the multiset of the values of a map.
* `ValuesOf.insert`, `ValuesOf.filter`: a new key, and keeping the values with a property.
-/

namespace Miniob.Lib

variable {K V : Type} {m : K → Option V} {s : Multiset V}

/-- The values of a map, each as often as there are keys with it. -/
def ValuesOf (m : K → Option V) (s : Multiset V) : Prop :=
  ∃ keys : List K, keys.Nodup ∧ (∀ k, k ∈ keys ↔ m k ≠ none) ∧ s = (keys.filterMap m : List V)

theorem valuesOf_none : ValuesOf (fun _ : K => (none : Option V)) 0 :=
  ⟨[], List.nodup_nil, by simp, rfl⟩

/-- A new key. -/
theorem ValuesOf.insert [DecidableEq K] (h : ValuesOf m s) {k : K} (hk : m k = none) (v : V) :
    ValuesOf (Function.update m k (some v)) (v ::ₘ s) := by
  obtain ⟨keys, hnodup, hkeys, rfl⟩ := h
  have hnot : k ∉ keys := fun hmem => (hkeys k).mp hmem hk
  refine ⟨k :: keys, List.nodup_cons.mpr ⟨hnot, hnodup⟩, ?_, ?_⟩
  · intro k'
    by_cases heq : k' = k
    · simp [heq]
    · simp [heq, hkeys]
  · rw [List.filterMap_cons_some (Function.update_self k (some v) m), Multiset.cons_coe]
    congr 2
    refine List.filterMap_congr fun k' hk' => ?_
    have hne : k' ≠ k := fun heq => hnot (heq ▸ hk')
    rw [Function.update_of_ne hne]

/-- Keeping the values with a property. -/
theorem ValuesOf.filter (h : ValuesOf m s) (p : V → Bool) :
    ValuesOf (fun k => (m k).filter p) (s.filter (p · = true)) := by
  obtain ⟨keys, hnodup, hkeys, rfl⟩ := h
  refine ⟨keys.filter fun k => ((m k).filter p).isSome, hnodup.filter _, ?_, ?_⟩
  · intro k
    rw [List.mem_filter, hkeys, Option.isSome_iff_ne_none, and_iff_right_iff_imp]
    intro hne hnone
    rw [hnone] at hne
    exact hne rfl
  · rw [Multiset.filter_coe]
    congr 1
    rw [List.filter_filterMap, List.filterMap_filter]
    refine List.filterMap_congr fun k _ => ?_
    cases m k with
    | none => simp
    | some v => by_cases hp : p v <;> simp [hp]

end Miniob.Lib
