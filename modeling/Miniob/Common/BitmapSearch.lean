import Miniob.Common.Bitmap
import Mathlib.Data.Nat.Find

/-!
# When a search of a bitmap is exact

A search goes wrong in two ways. The offset in the first byte is carried over to the first byte that
has a bit of the value, so that a bit in front of this offset is missed there. And the loop goes on
to the byte behind the bitmap if it finds nothing.

* `searchedBytes`: the bytes that a search reads.
* `SearchExact`: the search finds the next bit and reads no byte behind the bitmap.
* `SearchMeets`: the bitmaps and positions for which this is so.
* `searchExact_iff`: the search is exact if and only if `SearchMeets` holds.
-/

namespace Miniob.Common

variable {want : Bool} {bits : Bits}

/-! ## The bytes of a search -/

/-- The bytes that the loop reads.
Source: `bitmap.cpp`, `byte = bitmap_[iter]` in `Bitmap::next_setted_bit` -/
def bytesRead (want : Bool) (bits : Bits) : ℕ → ℕ → ℕ → List ℕ
  | 0, _, _ => []
  | left + 1, iter, startInByte =>
    iter ::
      if byteHas want bits iter then
        match findFirst want bits iter startInByte with
        | some _ => []
        | none => bytesRead want bits left (iter + 1) 0
      else bytesRead want bits left (iter + 1) startInByte

/-- The bytes that a search reads. -/
def searchedBytes (want : Bool) (bits : Bits) (size start : ℕ) : List ℕ :=
  bytesRead want bits (bitmapBytes size + 1 - start / 8) (start / 8) (start % 8)

/-- The search finds the least position from the start on that has the value, and reads no byte
behind the bitmap. -/
def SearchExact (want : Bool) (bits : Bits) (size start : ℕ) : Prop :=
  nextBit want bits size start = ((List.range size).find? fun i => start ≤ i ∧ bits i = want) ∧
    ∀ byte ∈ searchedBytes want bits size start, byte < bitmapBytes size

/-- The search meets a bit of the value in the bytes of the bitmap before it has missed one. The
offset of the start counts as long as no byte has a bit of the value. -/
def SearchMeets (want : Bool) (bits : Bits) (size start : ℕ) : Prop :=
  ∃ i, start ≤ i ∧ i < 8 * bitmapBytes size ∧ bits i = want ∧
    (start % 8 = 0 ∨ byteHas want bits (start / 8) ∨ start % 8 ≤ i % 8) ∧
    ∀ j, start ≤ j → j < i → j < size → bits j ≠ want

/-- A loop that ends at the byte behind the bitmap reads this byte unless it finds a bit of the
bitmap. -/
theorem bytesRead_lt_iff {bytes : ℕ} (left : ℕ) : ∀ {iter startInByte : ℕ},
    iter + left = bytes + 1 → iter ≤ bytes →
    ((∀ byte ∈ bytesRead want bits left iter startInByte, byte < bytes) ↔
      ∃ i, nextBitLoop want bits left iter startInByte = some i ∧ i < 8 * bytes) := by
  induction left with
  | zero => omega
  | succ left ih =>
    intro iter startInByte hleft hiter
    -- the loop goes on, unless this was the byte behind the bitmap
    have hnext : ∀ s, ((∀ byte ∈ iter :: bytesRead want bits left (iter + 1) s, byte < bytes) ↔
        ∃ i, nextBitLoop want bits left (iter + 1) s = some i ∧ i < 8 * bytes) := by
      intro s
      rw [List.forall_mem_cons]
      rcases Nat.lt_or_eq_of_le hiter with hlt | rfl
      · rw [ih (by omega) (by omega)]
        simp [hlt]
      · obtain rfl : left = 0 := by omega
        simp [nextBitLoop]
    unfold bytesRead nextBitLoop
    by_cases hhas : byteHas want bits iter
    · rw [if_pos hhas, if_pos hhas]
      cases hfirst : findFirst want bits iter startInByte with
      | none => exact hnext 0
      | some i =>
        have hi := (findFirst_eq_some hfirst).2.1
        simp only [List.mem_singleton, forall_eq, Option.some.injEq, exists_eq_left']
        omega
    · rw [if_neg hhas, if_neg hhas]
      exact hnext startInByte

/-- Bytes without a bit of the value are passed over with the offset. -/
theorem nextBitLoop_skip (left : ℕ) : ∀ {iter startInByte byte : ℕ}, iter ≤ byte →
    byte < iter + left → (∀ b, iter ≤ b → b < byte → ¬ byteHas want bits b) →
    nextBitLoop want bits left iter startInByte =
      nextBitLoop want bits (iter + left - byte) byte startInByte := by
  induction left with
  | zero => omega
  | succ left ih =>
    intro iter startInByte byte hle hlt hnone
    rcases Nat.lt_or_eq_of_le hle with hbyte | rfl
    · rw [nextBitLoop, if_neg (hnone iter le_rfl hbyte),
        ih hbyte (by omega) (fun b hb => hnone b (by omega))]
      congr 1
      omega
    · rw [Nat.add_sub_cancel_left]

/-- The first byte from a byte on that has a bit of the value. -/
theorem exists_first_byte {byte b : ℕ} (hle : byte ≤ b) (hb : byteHas want bits b) :
    ∃ first, byte ≤ first ∧ first ≤ b ∧ byteHas want bits first ∧
      ∀ c, byte ≤ c → c < first → ¬ byteHas want bits c := by
  have hex : ∃ c, byte ≤ c ∧ byteHas want bits c := ⟨b, hle, hb⟩
  refine ⟨Nat.find hex, (Nat.find_spec hex).1, Nat.find_min' hex ⟨hle, hb⟩,
    (Nat.find_spec hex).2, ?_⟩
  intro c hc hlt hhas
  exact Nat.find_min hex hlt ⟨hc, hhas⟩

theorem byteHas_div {i : ℕ} (h : bits i = want) : byteHas want bits (i / 8) :=
  byteHas_iff.mpr ⟨i % 8, Nat.mod_lt _ (by decide), by rw [Nat.div_add_mod, h]⟩

/-- Bytes without a bit of the value move the start of a search to the first byte that has one. -/
theorem nextBit_skip {size start byte : ℕ} (hle : start / 8 ≤ byte)
    (hbyte : byte ≤ bitmapBytes size)
    (hnone : ∀ b, start / 8 ≤ b → b < byte → ¬ byteHas want bits b) :
    nextBit want bits size start = nextBit want bits size (8 * byte + start % 8) := by
  have hlt := Nat.mod_lt start (show 0 < 8 by decide)
  have hdiv : (8 * byte + start % 8) / 8 = byte := by omega
  have hmod : (8 * byte + start % 8) % 8 = start % 8 := by omega
  unfold nextBit
  rw [nextBitLoop_skip _ hle (by omega) hnone, hdiv, hmod,
    show start / 8 + (bitmapBytes size + 1 - start / 8) - byte = bitmapBytes size + 1 - byte by
      omega]

/-- What a loop finds is the next bit of the value, from the offset in the first byte that has
one. -/
theorem nextBitLoop_eq_some {left iter startInByte i : ℕ} (hlt : startInByte < 8)
    (h : nextBitLoop want bits left iter startInByte = some i) :
    ∃ byte, iter ≤ byte ∧ (∀ b, iter ≤ b → b < byte → ¬ byteHas want bits b) ∧
      8 * byte + startInByte ≤ i ∧ byteHas want bits byte ∧ bits i = want ∧
      ∀ j, 8 * byte + startInByte ≤ j → j < i → bits j ≠ want := by
  induction left generalizing iter with
  | zero => cases h
  | succ left ih =>
    by_cases hhas : byteHas want bits iter
    · have hspec := nextBitLoop_spec (left + 1) iter startInByte (Or.inr hhas) hlt
      rw [h] at hspec
      refine ⟨iter, le_rfl, fun b hb hb' => absurd hb' (by omega), hspec.1, hhas, hspec.2⟩
    · rw [nextBitLoop, if_neg hhas] at h
      obtain ⟨byte, hle, hnone, hrest⟩ := ih h
      refine ⟨byte, by omega, ?_, hrest⟩
      intro b hb hb'
      rcases Nat.lt_or_eq_of_le hb with hb | rfl
      · exact hnone b hb hb'
      · exact hhas

/-! ## Exact searches -/

/-- The search has its position as the answer if this is the next bit of the value below the size,
or if it lies behind all of them. -/
theorem filter_eq_find? {size start i : ℕ} (hi : start ≤ i) (hbit : bits i = want) :
    ((some i).filter fun i => i < size) =
        ((List.range size).find? fun i => start ≤ i ∧ bits i = want) ↔
      ∀ j, start ≤ j → j < i → j < size → bits j ≠ want := by
  by_cases hlt : i < size
  · rw [Option.filter_some_pos (by simpa using hlt), eq_comm, List.find?_range_eq_some]
    constructor
    · rintro ⟨-, -, hmin⟩ j hj hji - heq
      have := hmin j hji
      simp [hj, heq] at this
    · intro hmin
      refine ⟨by simp [hi, hbit], List.mem_range.mpr hlt, ?_⟩
      intro j hji
      by_cases hj : start ≤ j
      · simp [hmin j hj hji (by omega)]
      · simp [hj]
  · rw [Option.filter_some_neg (by simpa using hlt), eq_comm, List.find?_range_eq_none]
    constructor
    · intro hnone j hj _ hsize heq
      have := hnone j hsize
      simp [hj, heq] at this
    · intro hmin j hsize
      by_cases hj : start ≤ j
      · simp [hmin j hj (by omega) hsize]
      · simp [hj]

/-- An exact search has found a bit of the bitmap. -/
theorem SearchExact.meets {size start : ℕ} (hstart : start ≤ size)
    (h : SearchExact want bits size start) : SearchMeets want bits size start := by
  have hsize := le_bitmapBytes size
  obtain ⟨hfind, hread⟩ := h
  obtain ⟨i, hloop, hi⟩ := (bytesRead_lt_iff _ (by omega) (by omega)).mp hread
  obtain ⟨byte, hle, hnone, hoff, hhas, hbit, -⟩ :=
    nextBitLoop_eq_some (Nat.mod_lt _ (by decide)) hloop
  have hsi : start ≤ i := by omega
  rw [nextBit, hloop, filter_eq_find? hsi hbit] at hfind
  refine ⟨i, hsi, hi, hbit, ?_, hfind⟩
  rcases Nat.lt_or_eq_of_le hle with hbyte | rfl
  · -- a bit in front of the offset would have been missed
    obtain ⟨k, hk, hkbit⟩ := byteHas_iff.mp hhas
    by_contra hmiss
    push Not at hmiss
    have hlast : i < 8 * (byte + 1) := by
      by_contra hge
      have hlt : byte + 1 < bitmapBytes size := by omega
      unfold bitmapBytes at hlt
      split at hlt <;> exact hfind (8 * byte + k) (by omega) (by omega) (by omega) hkbit
    omega
  · exact Or.inr (Or.inl hhas)

/-- A search that meets a bit of the value finds the next one. -/
theorem SearchMeets.exact {size start : ℕ} (hstart : start ≤ size)
    (h : SearchMeets want bits size start) : SearchExact want bits size start := by
  have hsize := le_bitmapBytes size
  obtain ⟨i, hsi, hi, hbit, hoff, hmin⟩ := h
  obtain ⟨byte, hle, hbi, hhas, hnone⟩ :=
    exists_first_byte (Nat.div_le_div_right hsi) (byteHas_div hbit)
  -- the bit lies behind the place where the first byte is searched
  obtain ⟨first, hfirst, hnone', hpos, hfi⟩ : ∃ first, start / 8 ≤ first ∧
      (∀ b, start / 8 ≤ b → b < first → ¬ byteHas want bits b) ∧
      (start % 8 = 0 ∨ byteHas want bits first) ∧ 8 * first + start % 8 ≤ i := by
    rcases hoff with hzero | hhere | hmod
    · exact ⟨start / 8, le_rfl, fun b hb hb' => absurd hb' (by omega), Or.inl hzero, by omega⟩
    · exact ⟨start / 8, le_rfl, fun b hb hb' => absurd hb' (by omega), Or.inr hhere, by omega⟩
    · exact ⟨byte, hle, hnone, Or.inr hhas, by omega⟩
  have hskip := @nextBitLoop_skip want bits (bitmapBytes size + 1 - start / 8) (start / 8)
    (start % 8) first hfirst (by omega) hnone'
  have hspec := nextBitLoop_spec (start / 8 + (bitmapBytes size + 1 - start / 8) - first) first
    (start % 8) hpos (Nat.mod_lt _ (by decide))
  rw [← hskip] at hspec
  unfold SearchExact searchedBytes nextBit
  rw [bytesRead_lt_iff _ (by omega) (by omega)]
  cases hloop : nextBitLoop want bits (bitmapBytes size + 1 - start / 8) (start / 8)
      (start % 8) with
  | none =>
    rw [hloop] at hspec
    exact absurd hbit (hspec i hfi (by omega))
  | some found =>
    rw [hloop] at hspec
    obtain ⟨hfound, hfbit, hfmin⟩ := hspec
    have hle' : found ≤ i := by
      by_contra hlt
      exact hfmin i hfi (by omega) hbit
    rw [filter_eq_find? (by omega) hfbit]
    refine ⟨?_, found, rfl, by omega⟩
    intro j hj hjf hjs
    exact hmin j hj (by omega) hjs

/-- A search finds the next bit of the value, and reads no byte behind the bitmap, if and only if
it meets a bit of the value before it has missed one. -/
theorem searchExact_iff (want : Bool) (bits : Bits) {size start : ℕ} (hstart : start ≤ size) :
    SearchExact want bits size start ↔ SearchMeets want bits size start :=
  ⟨fun h => h.meets hstart, fun h => h.exact hstart⟩

/-- The bit is met although the first byte is clear, as its place in its byte is the start's. -/
theorem searchExact_sample : 1 ≤ 16 ∧
    (SearchExact true (fun i => i = 9) 16 1 ↔ SearchMeets true (fun i => i = 9) 16 1) :=
  ⟨by decide, searchExact_iff true _ (by decide)⟩

/-- Bit 8 is missed by a search from 1 on, as the offset is carried over to the second byte; and a
search that finds nothing reads the byte behind the bitmap. -/
theorem search_fails : ¬ SearchExact true (fun i => i = 8) 16 1 ∧
    nextSettedBit (fun i => i = 8) 16 1 = none ∧
    ¬ SearchExact false (fun _ => true) 16 0 ∧ 2 ∈ searchedBytes false (fun _ => true) 16 0 := by
  have hmissed : nextSettedBit (fun i => i = 8) 16 1 = none := by decide
  have hbehind : 2 ∈ searchedBytes false (fun _ => true) 16 0 := by decide
  refine ⟨?_, hmissed, ?_, hbehind⟩
  · rintro ⟨hfind, -⟩
    exact absurd (hmissed.symm.trans hfind) (by decide)
  · rintro ⟨-, hread⟩
    exact absurd (hread 2 hbehind) (by decide)

end Miniob.Common
