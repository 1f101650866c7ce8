import Mathlib.Data.List.Basic
import Mathlib.Data.List.Nodup
import Mathlib.Order.Lattice

/-!
# Lists of consecutive cells

A cell `c` covers the half-open interval from `lo c` to `hi c`. `Cells lo hi a b cs` says that the
cells of `cs`, in order, cover the interval from `a` to `b`: each is nonempty and starts where the
one before it ends.

* `cells_append`: a list of cells can be cut anywhere, and two that meet can be joined.
* `cells_split`: every point of the interval lies in a cell, with the cells before it entirely
  below the point and those after it entirely above.
* `cells_unique`: it lies in only one.
-/

namespace Miniob.Lib

variable {ι B : Type} [LinearOrder B] {lo hi : ι → B} {a b m x : B} {c d : ι} {cs l r : List ι}

/-- The cells of a list cover the interval from `a` to `b` one after another. -/
def Cells (lo hi : ι → B) : B → B → List ι → Prop
  | a, b, [] => a = b
  | a, b, c :: cs => lo c = a ∧ lo c < hi c ∧ Cells lo hi (hi c) b cs

@[simp] theorem cells_nil : Cells lo hi a b [] ↔ a = b := Iff.rfl

@[simp] theorem cells_cons :
    Cells lo hi a b (c :: cs) ↔ lo c = a ∧ lo c < hi c ∧ Cells lo hi (hi c) b cs := Iff.rfl

/-- Cutting and joining. -/
theorem cells_append :
    Cells lo hi a b (l ++ r) ↔ ∃ m, Cells lo hi a m l ∧ Cells lo hi m b r := by
  induction l generalizing a with
  | nil => simp
  | cons c l ih =>
      simp only [List.cons_append, cells_cons, ih]
      constructor
      · rintro ⟨hlo, hlt, m, hl, hr⟩
        exact ⟨m, ⟨hlo, hlt, hl⟩, hr⟩
      · rintro ⟨m, ⟨hlo, hlt, hl⟩, hr⟩
        exact ⟨hlo, hlt, m, hl, hr⟩

/-- The interval does not run backwards. -/
theorem cells_le (h : Cells lo hi a b cs) : a ≤ b := by
  induction cs generalizing a with
  | nil => exact h.le
  | cons c cs ih =>
      obtain ⟨rfl, hlt, hcs⟩ := h
      exact hlt.le.trans (ih hcs)

/-- Each cell is nonempty and lies in the interval. -/
theorem cells_mem (h : Cells lo hi a b cs) (hc : c ∈ cs) : a ≤ lo c ∧ lo c < hi c ∧ hi c ≤ b := by
  obtain ⟨l, r, rfl⟩ := List.append_of_mem hc
  obtain ⟨m, hl, hlo, hlt, hr⟩ := cells_append.mp h
  exact ⟨hlo ▸ cells_le hl, hlt, cells_le hr⟩

/-- The cell after a cut starts at the cut. -/
theorem cells_cut (h : Cells lo hi a b (l ++ c :: r)) :
    Cells lo hi a (lo c) l ∧ lo c < hi c ∧ Cells lo hi (hi c) b r := by
  obtain ⟨m, hl, rfl, hlt, hr⟩ := cells_append.mp h
  exact ⟨hl, hlt, hr⟩

/-- Every point of the interval lies in a cell. -/
theorem cells_split (h : Cells lo hi a b cs) (hax : a ≤ x) (hxb : x < b) :
    ∃ l c r, cs = l ++ c :: r ∧ lo c ≤ x ∧ x < hi c := by
  induction cs generalizing a with
  | nil => exact absurd (h ▸ hxb) hax.not_gt
  | cons c cs ih =>
      obtain ⟨rfl, hlt, hcs⟩ := h
      by_cases hx : x < hi c
      · exact ⟨[], c, cs, rfl, hax, hx⟩
      · obtain ⟨l, d, r, rfl, hd⟩ := ih hcs (not_lt.mp hx)
        exact ⟨c :: l, d, r, rfl, hd⟩

/-- The cells before the cell of a point end at or below it. -/
theorem cells_before (h : Cells lo hi a b (l ++ c :: r)) (hd : d ∈ l) : hi d ≤ lo c :=
  (cells_mem (cells_cut h).1 hd).2.2

/-- The cells after the cell of a point start at or above its end. -/
theorem cells_after (h : Cells lo hi a b (l ++ c :: r)) (hd : d ∈ r) : hi c ≤ lo d :=
  (cells_mem (cells_cut h).2.2 hd).1

/-- Each cell ends before the later ones start. -/
theorem cells_pairwise_le (h : Cells lo hi a b cs) : cs.Pairwise fun c d => hi c ≤ lo d := by
  induction cs generalizing a with
  | nil => exact List.Pairwise.nil
  | cons c cs ih =>
      obtain ⟨-, -, hcs⟩ := h
      exact List.pairwise_cons.mpr ⟨fun d hd => (cells_mem hcs hd).1, ih hcs⟩

/-- The lower ends of the cells increase. -/
theorem cells_pairwise (h : Cells lo hi a b cs) : cs.Pairwise fun c d => lo c < lo d := by
  induction cs generalizing a with
  | nil => exact List.Pairwise.nil
  | cons c cs ih =>
      obtain ⟨rfl, hlt, hcs⟩ := h
      refine List.pairwise_cons.mpr ⟨fun d hd => ?_, ih hcs⟩
      exact hlt.trans_le (cells_mem hcs hd).1

/-- No cell occurs twice. -/
theorem cells_nodup (h : Cells lo hi a b cs) : cs.Nodup := by
  induction cs generalizing a with
  | nil => exact List.nodup_nil
  | cons c cs ih =>
      obtain ⟨rfl, hlt, hcs⟩ := h
      refine List.nodup_cons.mpr ⟨fun hmem => ?_, ih hcs⟩
      exact absurd (cells_mem hcs hmem).1 hlt.not_ge

/-- A point lies in one cell only. -/
theorem cells_unique (h : Cells lo hi a b cs) (hc : c ∈ cs) (hd : d ∈ cs) (hcx : lo c ≤ x)
    (hxc : x < hi c) (hdx : lo d ≤ x) (hxd : x < hi d) : c = d := by
  obtain ⟨l, r, rfl⟩ := List.append_of_mem hc
  rcases List.mem_append.mp hd with hd | hd
  · exact absurd ((cells_before h hd).trans hcx) hxd.not_ge
  · rcases List.mem_cons.mp hd with rfl | hd
    · rfl
    · exact absurd ((cells_after h hd).trans hdx) hxc.not_ge

/-- Only the bounds of the cells in the list matter. -/
theorem cells_congr {lo' hi' : ι → B} (hlo : ∀ c ∈ cs, lo' c = lo c)
    (hhi : ∀ c ∈ cs, hi' c = hi c) :
    Cells lo' hi' a b cs ↔ Cells lo hi a b cs := by
  induction cs generalizing a with
  | nil => exact Iff.rfl
  | cons c cs ih =>
      rw [cells_cons, cells_cons, hlo c (by simp), hhi c (by simp),
        ih (fun d hd => hlo d (by simp [hd])) fun d hd => hhi d (by simp [hd])]

end Miniob.Lib
