import Mathlib.Algebra.Order.Ring.Nat

/-!
# Little-endian numbers

The bytes of a natural number, the least significant one first, cut off after a number of bytes.

* `leBytes`, `leValue`: the bytes of a number, and the number of some bytes.
* `leValue_leBytes`: a number modulo a power of 256 is read back.
* `readLe`: a number at the beginning of a list of bytes.
-/

namespace Miniob.Lib

/-- The `n` low bytes of a number. -/
def leBytes : ℕ → ℕ → List (Fin 256)
  | 0, _ => []
  | n + 1, v => ⟨v % 256, Nat.mod_lt v (by decide)⟩ :: leBytes n (v / 256)

/-- The number that has these bytes. -/
def leValue : List (Fin 256) → ℕ
  | [] => 0
  | b :: bs => b.val + 256 * leValue bs

@[simp] theorem length_leBytes (n v : ℕ) : (leBytes n v).length = n := by
  induction n generalizing v with
  | zero => rfl
  | succ n ih => rw [leBytes, List.length_cons, ih]

/-- The bytes of a number are those of the number modulo the power. -/
theorem leValue_leBytes (n v : ℕ) : leValue (leBytes n v) = v % 256 ^ n := by
  induction n generalizing v with
  | zero => rw [leBytes, leValue, Nat.pow_zero, Nat.mod_one]
  | succ n ih =>
    rw [leBytes, leValue, ih, Nat.pow_succ']
    exact (Nat.mod_mul).symm

/-- A number of `n` bytes, and the bytes behind it. -/
def readLe (n : ℕ) (bytes : List (Fin 256)) : Option (ℕ × List (Fin 256)) :=
  if n ≤ bytes.length then some (leValue (bytes.take n), bytes.drop n) else none

/-- The bytes of a number are read back, up to the power. -/
theorem readLe_leBytes (n v : ℕ) (rest : List (Fin 256)) :
    readLe n (leBytes n v ++ rest) = some (v % 256 ^ n, rest) := by
  have hlen : (leBytes n v).length = n := length_leBytes n v
  rw [readLe, if_pos (by rw [List.length_append, hlen]; exact Nat.le_add_right _ _),
    List.take_left' hlen, List.drop_left' hlen, leValue_leBytes]

end Miniob.Lib
