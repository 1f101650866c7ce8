import Mathlib.Data.List.Basic
import Mathlib.Order.Basic
import Mathlib.Tactic.Linarith

/-!
# Binary search with a three-way comparison

`lowerBound comp xs` searches a list by halving: `comp x` is the sign of the comparison of `x`
with the value looked for, and the loop stops as soon as it hits an equal element.

* `lowerBound_split`: on a list cut as (smaller) ++ (greater) the search ends at the cut and
  reports nothing found.
* `lowerBound_found`: on a list with one equal element the search ends at it and reports it.
* `exists_split`: every list sorted by a rank that `comp` reflects has one of the two forms.
-/

namespace Miniob.Lib

variable {α : Type}

/-- The search loop: `first` is the start of the range still searched and `count` its length. The
first argument bounds the number of rounds; `count` decreases in each. -/
def lowerBoundLoop (comp : α → Int) (xs : List α) : ℕ → ℕ → ℕ → ℕ × Bool
  | 0, first, _ => (first, false)
  | fuel + 1, first, count =>
    if count = 0 then (first, false)
    else
      let step := count / 2
      match xs[first + step]? with
      | none => (first, false)
      | some x =>
        let result := comp x
        if result = 0 then (first + step, true)
        else if result < 0 then lowerBoundLoop comp xs fuel (first + step + 1) (count - (step + 1))
        else lowerBoundLoop comp xs fuel first step

/-- The position of the first element that is not smaller, and whether it is equal. -/
def lowerBound (comp : α → Int) (xs : List α) : ℕ × Bool :=
  lowerBoundLoop comp xs xs.length 0 xs.length

/-- A search by a part of the elements is a search of these parts. By induction on the rounds. -/
theorem lowerBoundLoop_map {β : Type} (f : α → β) (comp : β → Int) (xs : List α)
    (fuel first count : ℕ) :
    lowerBoundLoop comp (xs.map f) fuel first count =
      lowerBoundLoop (fun x => comp (f x)) xs fuel first count := by
  induction fuel generalizing first count with
  | zero => rfl
  | succ fuel ih =>
      unfold lowerBoundLoop
      simp only [List.getElem?_map]
      cases xs[first + count / 2]? with
      | none => rfl
      | some x => simp only [Option.map_some, ih]

theorem lowerBound_map {β : Type} (f : α → β) (comp : β → Int) (xs : List α) :
    lowerBound comp (xs.map f) = lowerBound (fun x => comp (f x)) xs := by
  unfold lowerBound
  rw [List.length_map, lowerBoundLoop_map]

/-- The loop on a list without an equal element: the range always holds the cut. -/
theorem lowerBoundLoop_split {comp : α → Int} {l r : List α} (hl : ∀ x ∈ l, comp x < 0)
    (hr : ∀ x ∈ r, 0 < comp x) (fuel first count : ℕ) (hfuel : count ≤ fuel)
    (hfirst : first ≤ l.length) (hlast : l.length ≤ first + count)
    (hlen : first + count ≤ l.length + r.length) :
    lowerBoundLoop comp (l ++ r) fuel first count = (l.length, false) := by
  induction fuel generalizing first count with
  | zero =>
      have : first = l.length := by omega
      simp [lowerBoundLoop, this]
  | succ fuel ih =>
      unfold lowerBoundLoop
      split
      · have : first = l.length := by omega
        rw [this]
      · simp only
        by_cases hcut : first + count / 2 < l.length
        · have hx : (l ++ r)[first + count / 2]? = some (l.get ⟨_, hcut⟩) := by
            rw [List.getElem?_append_left hcut]
            simp
          have hneg := hl _ (l.get_mem ⟨_, hcut⟩)
          rw [hx]
          simp only
          rw [if_neg (by omega), if_pos hneg]
          exact ih _ _ (by omega) (by omega) (by omega) (by omega)
        · have hb : first + count / 2 - l.length < r.length := by omega
          have hx : (l ++ r)[first + count / 2]? = some (r.get ⟨_, hb⟩) := by
            rw [List.getElem?_append_right (by omega)]
            simp
          have hpos := hr _ (r.get_mem ⟨_, hb⟩)
          rw [hx]
          simp only
          rw [if_neg (by omega), if_neg (by omega)]
          exact ih _ _ (by omega) (by omega) (by omega) (by omega)

/-- The loop on a list with one equal element: the range always holds it. -/
theorem lowerBoundLoop_found {comp : α → Int} {l r : List α} {a : α} (hl : ∀ x ∈ l, comp x < 0)
    (ha : comp a = 0) (hr : ∀ x ∈ r, 0 < comp x) (fuel first count : ℕ) (hfuel : count ≤ fuel)
    (hfirst : first ≤ l.length) (hlast : l.length < first + count)
    (hlen : first + count ≤ l.length + 1 + r.length) :
    lowerBoundLoop comp (l ++ a :: r) fuel first count = (l.length, true) := by
  induction fuel generalizing first count with
  | zero => omega
  | succ fuel ih =>
      unfold lowerBoundLoop
      rw [if_neg (by omega)]
      simp only
      rcases lt_trichotomy (first + count / 2) l.length with hcut | hcut | hcut
      · have hx : (l ++ a :: r)[first + count / 2]? = some (l.get ⟨_, hcut⟩) := by
          rw [List.getElem?_append_left hcut]
          simp
        have hneg := hl _ (l.get_mem ⟨_, hcut⟩)
        rw [hx]
        simp only
        rw [if_neg (by omega), if_pos hneg]
        exact ih _ _ (by omega) (by omega) (by omega) (by omega)
      · have hx : (l ++ a :: r)[first + count / 2]? = some a := by
          rw [List.getElem?_append_right (by omega), hcut]
          simp
        rw [hx]
        simp only
        rw [if_pos ha, hcut]
      · have hb : first + count / 2 - l.length - 1 < r.length := by omega
        have hx : (l ++ a :: r)[first + count / 2]? = some (r.get ⟨_, hb⟩) := by
          rw [List.getElem?_append_right (by omega), List.getElem?_cons, if_neg (by omega)]
          simp
        have hpos := hr _ (r.get_mem ⟨_, hb⟩)
        rw [hx]
        simp only
        rw [if_neg (by omega), if_neg (by omega)]
        exact ih _ _ (by omega) (by omega) (by omega) (by omega)

/-- A list cut into smaller and greater elements: the search ends at the cut. -/
theorem lowerBound_split {comp : α → Int} {l r : List α} (hl : ∀ x ∈ l, comp x < 0)
    (hr : ∀ x ∈ r, 0 < comp x) : lowerBound comp (l ++ r) = (l.length, false) := by
  unfold lowerBound
  rw [List.length_append]
  exact lowerBoundLoop_split hl hr _ _ _ le_rfl (by omega) (by omega) (by omega)

/-- A list with one equal element: the search ends at it. -/
theorem lowerBound_found {comp : α → Int} {l r : List α} {a : α} (hl : ∀ x ∈ l, comp x < 0)
    (ha : comp a = 0) (hr : ∀ x ∈ r, 0 < comp x) :
    lowerBound comp (l ++ a :: r) = (l.length, true) := by
  unfold lowerBound
  have hlen : (l ++ a :: r).length = l.length + 1 + r.length := by simp; omega
  rw [hlen]
  exact lowerBoundLoop_found hl ha hr _ _ _ le_rfl (by omega) (by omega) (by omega)

/-- A list sorted by a rank that `comp` reflects is cut by the search. -/
theorem exists_split {O : Type} [LinearOrder O] (rank : α → O) (x : O) (comp : α → Int)
    (xs : List α) (hneg : ∀ a ∈ xs, rank a < x → comp a < 0)
    (hzero : ∀ a ∈ xs, rank a = x → comp a = 0)
    (hpos : ∀ a ∈ xs, x < rank a → 0 < comp a) (hsorted : xs.Pairwise (rank · < rank ·)) :
    (∃ l r, xs = l ++ r ∧ (∀ a ∈ l, rank a < x) ∧ (∀ a ∈ r, x < rank a) ∧
        lowerBound comp xs = (l.length, false)) ∨
      ∃ l a r, xs = l ++ a :: r ∧ rank a = x ∧ (∀ b ∈ l, rank b < x) ∧ (∀ b ∈ r, x < rank b) ∧
        lowerBound comp xs = (l.length, true) := by
  suffices h : (∃ l r, xs = l ++ r ∧ (∀ a ∈ l, rank a < x) ∧ (∀ a ∈ r, x < rank a)) ∨
      ∃ l a r, xs = l ++ a :: r ∧ rank a = x ∧ (∀ b ∈ l, rank b < x) ∧ (∀ b ∈ r, x < rank b) by
    rcases h with ⟨l, r, rfl, hl, hr⟩ | ⟨l, a, r, rfl, ha, hl, hr⟩
    · exact Or.inl ⟨l, r, rfl, hl, hr, lowerBound_split
        (fun b hb => hneg b (by simp [hb]) (hl b hb)) fun b hb => hpos b (by simp [hb]) (hr b hb)⟩
    · exact Or.inr ⟨l, a, r, rfl, ha, hl, hr, lowerBound_found
        (fun b hb => hneg b (by simp [hb]) (hl b hb)) (hzero a (by simp) ha)
        fun b hb => hpos b (by simp [hb]) (hr b hb)⟩
  clear hneg hzero hpos
  induction xs with
  | nil => exact Or.inl ⟨[], [], rfl, by simp, by simp⟩
  | cons a xs ih =>
      obtain ⟨hhead, htail⟩ := List.pairwise_cons.mp hsorted
      rcases lt_trichotomy (rank a) x with ha | ha | ha
      · rcases ih htail with ⟨l, r, rfl, hl, hr⟩ | ⟨l, b, r, rfl, hb, hl, hr⟩
        · exact Or.inl ⟨a :: l, r, rfl, by simpa [ha] using hl, hr⟩
        · exact Or.inr ⟨a :: l, b, r, rfl, hb, by simpa [ha] using hl, hr⟩
      · exact Or.inr ⟨[], a, xs, rfl, ha, by simp, fun b hb => ha ▸ hhead b hb⟩
      · refine Or.inl ⟨[], a :: xs, rfl, by simp, ?_⟩
        intro b hb
        rcases List.mem_cons.mp hb with rfl | hb
        · exact ha
        · exact ha.trans (hhead b hb)

end Miniob.Lib
