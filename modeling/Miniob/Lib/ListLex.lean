import Mathlib.Data.List.Lex
import Mathlib.Order.Lattice

/-!
# The order of words and their beginnings

Words over a linear order, in the lexicographic order, where a proper beginning is smaller. A word
of at most `n` letters sees of a longer word only the first `n` letters.

* `le_append_iff`, `lt_iff_le_take`: a short word is below a longer one if and only if it is at most
  the beginning of it.
* `append_singleton_le_iff`: the next word of the same length.
-/

namespace Miniob.Lib

variable {α : Type} [LinearOrder α]

theorem nil_le (l : List α) : [] ≤ l := le_of_not_gt (List.not_lt_nil l)

theorem not_cons_le_nil (a : α) (l : List α) : ¬ a :: l ≤ [] := (List.nil_lt_cons a l).not_ge

theorem cons_le_cons_iff {a b : α} {l m : List α} :
    a :: l ≤ b :: m ↔ a < b ∨ a = b ∧ l ≤ m := by
  rw [le_iff_lt_or_eq, List.cons_lt_cons_iff, List.cons_eq_cons, le_iff_lt_or_eq, or_assoc,
    ← and_or_left]

theorem take_le (l : List α) (n : ℕ) : l.take n ≤ l :=
  le_of_not_gt (List.take_prefix n l).le

/-- By induction on the beginning. -/
theorem lt_append_iff {t u v : List α} (hu : u ≠ []) (hv : v.length ≤ t.length) :
    v < t ++ u ↔ v ≤ t := by
  induction t generalizing v with
  | nil =>
      obtain ⟨a, u, rfl⟩ := List.exists_cons_of_ne_nil hu
      rw [List.eq_nil_of_length_eq_zero (Nat.le_zero.mp hv), List.nil_append]
      exact iff_of_true (List.nil_lt_cons a u) le_rfl
  | cons a t ih =>
      cases v with
      | nil => exact iff_of_true (List.nil_lt_cons a _) (nil_le _)
      | cons b v =>
          rw [List.cons_append, List.cons_lt_cons_iff, cons_le_cons_iff,
            ih (Nat.le_of_succ_le_succ hv)]

/-- A short word is below a longer one if and only if it is at most the beginning of it. -/
theorem lt_iff_le_take {l v : List α} {n : ℕ} (hv : v.length ≤ n) (hl : n < l.length) :
    v < l ↔ v ≤ l.take n := by
  have hdrop : l.drop n ≠ [] := by simpa using hl
  have hlength : v.length ≤ (l.take n).length := by
    rw [List.length_take, min_eq_left hl.le]
    exact hv
  rw [← lt_append_iff hdrop hlength, List.take_append_drop]

/-- A short word and a longer one are not equal. -/
theorem le_iff_le_take {l v : List α} {n : ℕ} (hv : v.length ≤ n) (hl : n < l.length) :
    v ≤ l ↔ v ≤ l.take n := by
  have hne : v ≠ l := by
    rintro rfl
    omega
  rw [← lt_iff_le_take hv hl, le_iff_lt_or_eq, or_iff_left hne]

/-- Beginnings of the same length are in the order of the words. -/
theorem take_le_take {l r : List α} (h : l ≤ r) (n : ℕ) : l.take n ≤ r.take n := by
  have hl : l.take n ≤ r := (take_le l n).trans h
  rcases le_or_gt r.length n with hr | hr
  · rwa [List.take_of_length_le hr]
  · exact (le_iff_le_take (List.length_take_le n l) hr).mp hl

/-- If one letter follows another, so do the words that end in them, among the words that are not
longer. By induction on the common beginning. -/
theorem append_singleton_le_iff {a b : α} (hab : ∀ c, b ≤ c ↔ a < c) {p v : List α}
    (hv : v.length ≤ p.length + 1) : p ++ [b] ≤ v ↔ p ++ [a] < v := by
  induction p generalizing v with
  | nil =>
      cases v with
      | nil => exact iff_of_false (not_cons_le_nil _ _) (List.not_lt_nil _)
      | cons c v =>
          have hnil : v = [] := List.eq_nil_of_length_eq_zero (by simpa using hv)
          rw [hnil, List.nil_append, List.nil_append, cons_le_cons_iff, List.cons_lt_cons_iff,
            and_iff_left le_rfl, ← le_iff_lt_or_eq, hab]
          simp
  | cons d p ih =>
      cases v with
      | nil => exact iff_of_false (not_cons_le_nil _ _) (List.not_lt_nil _)
      | cons c v =>
          rw [List.cons_append, List.cons_append, cons_le_cons_iff, List.cons_lt_cons_iff,
            ih (Nat.le_of_succ_le_succ hv)]

end Miniob.Lib
