import Mathlib.Data.List.Range
import Mathlib.Data.Finset.Card
import Mathlib.Data.Finset.Range
import Mathlib.Logic.Function.Basic

/-!
# Bitmaps

A bitmap is searched byte by byte for the next bit that is set, or clear. The search is the same
for both, so `nextBit` takes the value that is looked for.

* `nextSettedBit`, `nextUnsettedBit`: the searches.
* `nextBit_eq`: they find the next bit if the search starts at a byte, or in a byte that has a bit
  of the value. In other cases the offset in the first byte is carried over to a later byte.
* `settedFrom`: the bits that are set, as repeated searches find them.
* `bitCount`: the number of bits that are set.
-/

namespace Miniob.Common

/-- The memory of a bitmap, bit by bit. -/
abbrev Bits := ℕ → Bool

/-- A bit of the byte has the value.
Source: `bitmap.cpp`, the tests `byte != 0x00` and `byte != -1` -/
def byteHas (want : Bool) (bits : Bits) (iter : ℕ) : Bool :=
  (List.range 8).any fun i => bits (8 * iter + i) = want

/-- Source: `bitmap.cpp`, `find_first_setted`, `find_first_zero` -/
def findFirst (want : Bool) (bits : Bits) (iter start : ℕ) : Option ℕ :=
  (List.range 8).find? fun i => start ≤ i ∧ bits (8 * iter + i) = want

/-- The loop over the bytes. The offset in the byte goes back to 0 only after a byte that has been
searched. -/
def nextBitLoop (want : Bool) (bits : Bits) : ℕ → ℕ → ℕ → Option ℕ
  | 0, _, _ => none
  | left + 1, iter, startInByte =>
    if byteHas want bits iter then
      match findFirst want bits iter startInByte with
      | some i => some (8 * iter + i)
      | none => nextBitLoop want bits left (iter + 1) 0
    else nextBitLoop want bits left (iter + 1) startInByte

/-- The number of bytes of a bitmap. -/
def bitmapBytes (size : ℕ) : ℕ := if size % 8 = 0 then size / 8 else size / 8 + 1

/-- The search. It looks at one byte more than the bitmap has. -/
def nextBit (want : Bool) (bits : Bits) (size start : ℕ) : Option ℕ :=
  (nextBitLoop want bits (bitmapBytes size + 1 - start / 8) (start / 8) (start % 8)).filter
    fun i => i < size

/-- Source: `bitmap.cpp`, `Bitmap::next_setted_bit` -/
def nextSettedBit (bits : Bits) (size start : ℕ) : Option ℕ := nextBit true bits size start

/-- Source: `bitmap.cpp`, `Bitmap::next_unsetted_bit` -/
def nextUnsettedBit (bits : Bits) (size start : ℕ) : Option ℕ := nextBit false bits size start

variable {want : Bool} {bits : Bits}

theorem byteHas_iff {iter : ℕ} : byteHas want bits iter ↔ ∃ i < 8, bits (8 * iter + i) = want := by
  simp [byteHas]

theorem findFirst_eq_some {iter start i : ℕ} (h : findFirst want bits iter start = some i) :
    start ≤ i ∧ i < 8 ∧ bits (8 * iter + i) = want ∧
      ∀ j, start ≤ j → j < i → bits (8 * iter + j) ≠ want := by
  rw [findFirst, List.find?_range_eq_some] at h
  obtain ⟨hi, hlt, hmin⟩ := h
  rw [List.mem_range] at hlt
  refine ⟨(of_decide_eq_true hi).1, hlt, (of_decide_eq_true hi).2, ?_⟩
  intro j hj hji heq
  have := hmin j hji
  simp [hj, heq] at this

theorem findFirst_eq_none {iter start : ℕ} (h : findFirst want bits iter start = none) :
    ∀ j, start ≤ j → j < 8 → bits (8 * iter + j) ≠ want := by
  intro j hj hlt heq
  rw [findFirst, List.find?_range_eq_none] at h
  have := h j hlt
  simp [hj, heq] at this

/-- What the loop finds is the next bit of the value at `8 * iter + startInByte` or later. -/
theorem nextBitLoop_spec (left : ℕ) : ∀ (iter startInByte : ℕ),
    startInByte = 0 ∨ byteHas want bits iter → startInByte < 8 →
    match nextBitLoop want bits left iter startInByte with
    | some i => 8 * iter + startInByte ≤ i ∧ bits i = want ∧
        ∀ j, 8 * iter + startInByte ≤ j → j < i → bits j ≠ want
    | none => ∀ j, 8 * iter + startInByte ≤ j → j < 8 * (iter + left) → bits j ≠ want := by
  induction left with
  | zero =>
    intro iter startInByte _ _ j hj hlt
    omega
  | succ left ih =>
    intro iter startInByte hstart hlt8
    -- no bit of this byte has the value, from the offset on
    have hnext : (∀ j, startInByte ≤ j → j < 8 → bits (8 * iter + j) ≠ want) →
        match nextBitLoop want bits left (iter + 1) 0 with
        | some i => 8 * iter + startInByte ≤ i ∧ bits i = want ∧
            ∀ j, 8 * iter + startInByte ≤ j → j < i → bits j ≠ want
        | none => ∀ j, 8 * iter + startInByte ≤ j → j < 8 * (iter + (left + 1)) →
            bits j ≠ want := by
      intro hbyte
      have hbyte' : ∀ j, 8 * iter + startInByte ≤ j → j < 8 * (iter + 1) → bits j ≠ want := by
        intro j hj hjlt
        have := hbyte (j - 8 * iter) (by omega) (by omega)
        rwa [Nat.add_sub_cancel' (by omega)] at this
      have h := ih (iter + 1) 0 (Or.inl rfl) (by decide)
      cases hloop : nextBitLoop want bits left (iter + 1) 0 with
      | some i =>
        simp only [hloop] at h ⊢
        refine ⟨by omega, h.2.1, ?_⟩
        intro j hj hji
        by_cases hjb : j < 8 * (iter + 1)
        · exact hbyte' j hj hjb
        · exact h.2.2 j (by omega) hji
      | none =>
        simp only [hloop] at h ⊢
        intro j hj hji
        by_cases hjb : j < 8 * (iter + 1)
        · exact hbyte' j hj hjb
        · exact h j (by omega) (by omega)
    unfold nextBitLoop
    by_cases hhas : byteHas want bits iter
    · rw [if_pos hhas]
      cases hfirst : findFirst want bits iter startInByte with
      | some i =>
        obtain ⟨hle, hi8, hi, hmin⟩ := findFirst_eq_some hfirst
        refine ⟨by omega, hi, ?_⟩
        intro j hj hji
        have := hmin (j - 8 * iter) (by omega) (by omega)
        rwa [Nat.add_sub_cancel' (by omega)] at this
      | none => exact hnext (findFirst_eq_none hfirst)
    · rw [if_neg hhas]
      obtain rfl := hstart.resolve_right hhas
      refine hnext ?_
      intro j _ hj heq
      exact hhas (byteHas_iff.mpr ⟨j, hj, heq⟩)

theorem le_bitmapBytes (size : ℕ) : size ≤ 8 * bitmapBytes size := by
  unfold bitmapBytes
  split <;> omega

/-- The search finds the next bit of the value if it starts at a byte, or in a byte that has a bit
of the value. -/
theorem nextBit_eq {size start : ℕ} (h : start % 8 = 0 ∨ byteHas want bits (start / 8)) :
    nextBit want bits size start =
      (List.range size).find? fun i => start ≤ i ∧ bits i = want := by
  have hspec := @nextBitLoop_spec want bits (bitmapBytes size + 1 - start / 8)
    (start / 8) (start % 8) h (Nat.mod_lt _ (by decide))
  have hsize := le_bitmapBytes size
  rw [Nat.div_add_mod] at hspec
  unfold nextBit
  cases hloop : nextBitLoop want bits (bitmapBytes size + 1 - start / 8) (start / 8)
      (start % 8) with
  | some i =>
    simp only [hloop] at hspec
    obtain ⟨hle, hi, hmin⟩ := hspec
    by_cases hlt : i < size
    · rw [Option.filter_some_pos (by simpa using hlt), eq_comm, List.find?_range_eq_some]
      refine ⟨by simp [hle, hi], List.mem_range.mpr hlt, ?_⟩
      intro j hj
      by_cases hs : start ≤ j
      · simp [hmin j hs hj]
      · simp [hs]
    · rw [Option.filter_some_neg (by simpa using hlt), eq_comm, List.find?_range_eq_none]
      intro j hj
      by_cases hs : start ≤ j
      · simp [hmin j hs (by omega)]
      · simp [hs]
  | none =>
    simp only [hloop] at hspec
    rw [Option.filter_none, eq_comm, List.find?_range_eq_none]
    intro j hj
    by_cases hs : start ≤ j
    · have := hspec j hs (by omega)
      simp [this]
    · simp [hs]

/-! ## Repeated searches -/

/-- The bits that are set, from a position on. -/
def settedFrom (bits : Bits) (size start : ℕ) : List ℕ :=
  (List.range size).filter fun i => start ≤ i ∧ bits i = true

@[simp] theorem mem_settedFrom {size start i : ℕ} :
    i ∈ settedFrom bits size start ↔ i < size ∧ start ≤ i ∧ bits i = true := by
  simp [settedFrom]

theorem settedFrom_sorted (bits : Bits) (size start : ℕ) :
    (settedFrom bits size start).Pairwise (· < ·) :=
  List.pairwise_lt_range.sublist List.filter_sublist

theorem length_settedFrom_le (bits : Bits) (size start : ℕ) :
    (settedFrom bits size start).length ≤ size := by
  have := List.length_filter_le (fun i => decide (start ≤ i ∧ bits i = true)) (List.range size)
  rwa [List.length_range] at this

/-- The first bit and the rest. -/
theorem settedFrom_eq_cons {size start i : ℕ} {rest : List ℕ}
    (h : settedFrom bits size start = i :: rest) : rest = settedFrom bits size (i + 1) := by
  have hsorted := settedFrom_sorted bits size start
  have hi : i ∈ settedFrom bits size start := h ▸ List.mem_cons_self
  have hstart := (mem_settedFrom.mp hi).2.1
  rw [h, List.pairwise_cons] at hsorted
  have hrest : (i :: rest).filter (fun j => i < j) = rest := by
    rw [List.filter_cons_of_neg (by simp), List.filter_eq_self]
    intro j hj
    simpa using hsorted.1 j hj
  rw [← hrest, ← h, settedFrom, settedFrom, List.filter_filter]
  refine List.filter_congr ?_
  intro j _
  rw [← Bool.decide_and, decide_eq_decide]
  constructor
  · rintro ⟨hij, -, hbit⟩
    exact ⟨hij, hbit⟩
  · rintro ⟨hij, hbit⟩
    exact ⟨hij, by omega, hbit⟩

/-- A search finds the first of the bits that are left. -/
theorem nextSettedBit_eq_head {size start : ℕ}
    (h : start % 8 = 0 ∨ byteHas true bits (start / 8)) :
    nextSettedBit bits size start = (settedFrom bits size start).head? := by
  rw [nextSettedBit, nextBit_eq h, settedFrom, List.head?_filter]

/-- A search that goes on after a bit that is set starts at a byte, or in the byte of that bit. -/
theorem searchable_succ {i : ℕ} (h : bits i = true) :
    (i + 1) % 8 = 0 ∨ byteHas true bits ((i + 1) / 8) := by
  by_cases hmod : (i + 1) % 8 = 0
  · exact Or.inl hmod
  · refine Or.inr (byteHas_iff.mpr ⟨i % 8, Nat.mod_lt _ (by decide), ?_⟩)
    have : 8 * ((i + 1) / 8) + i % 8 = i := by omega
    rw [this, h]

/-! ## Counting -/

/-- The number of bits that are set. -/
def bitCount (bits : Bits) (size : ℕ) : ℕ := ((Finset.range size).filter fun i => bits i).card

@[simp] theorem bitCount_clear (size : ℕ) : bitCount (fun _ => false) size = 0 := by
  simp [bitCount]

theorem bitCount_le (bits : Bits) (size : ℕ) : bitCount bits size ≤ size := by
  have := Finset.card_filter_le (Finset.range size) fun i => bits i
  rwa [Finset.card_range] at this

/-- A bit that is set is counted. -/
theorem bitCount_set {size i : ℕ} (hi : i < size) (hbit : bits i = false) :
    bitCount (Function.update bits i true) size = bitCount bits size + 1 := by
  have heq : ((Finset.range size).filter fun j => Function.update bits i true j) =
      insert i ((Finset.range size).filter fun j => bits j) := by
    ext j
    by_cases hj : j = i
    · subst hj
      simp [hi]
    · simp [hj]
  rw [bitCount, heq, Finset.card_insert_of_notMem (by simp [hbit])]
  rfl

/-- A bit that is cleared is no longer counted. -/
theorem bitCount_reset {size i : ℕ} (hi : i < size) (hbit : bits i = true) :
    bitCount (Function.update bits i false) size + 1 = bitCount bits size := by
  rw [← bitCount_set hi (Function.update_self i false bits), Function.update_idem,
    ← hbit, Function.update_eq_self]

/-- A bitmap without a clear bit is full. -/
theorem bitCount_eq_of_forall {size : ℕ} (h : ∀ i < size, bits i = true) :
    bitCount bits size = size := by
  rw [bitCount, Finset.filter_true_of_mem, Finset.card_range]
  intro i hi
  exact h i (Finset.mem_range.mp hi)

theorem bitCount_pos_iff {size : ℕ} : 0 < bitCount bits size ↔ ∃ i < size, bits i = true := by
  rw [bitCount, Finset.card_pos]
  constructor
  · rintro ⟨i, hi⟩
    rw [Finset.mem_filter, Finset.mem_range] at hi
    exact ⟨i, hi⟩
  · rintro ⟨i, hi, hbit⟩
    exact ⟨i, Finset.mem_filter.mpr ⟨Finset.mem_range.mpr hi, hbit⟩⟩

/-- A bitmap that is not full has a clear bit, and the search finds it. -/
theorem nextUnsettedBit_of_lt {size : ℕ} (h : bitCount bits size < size) :
    ∃ i < size, nextUnsettedBit bits size 0 = some i ∧ bits i = false := by
  rw [nextUnsettedBit, nextBit_eq (Or.inl rfl)]
  cases hfind : (List.range size).find? fun i => 0 ≤ i ∧ bits i = false with
  | some i =>
    rw [List.find?_range_eq_some] at hfind
    exact ⟨i, List.mem_range.mp hfind.2.1, rfl, (of_decide_eq_true hfind.1).2⟩
  | none =>
    rw [List.find?_range_eq_none] at hfind
    refine absurd (bitCount_eq_of_forall fun i hi => ?_) h.ne
    have := hfind i hi
    simpa using this

end Miniob.Common
