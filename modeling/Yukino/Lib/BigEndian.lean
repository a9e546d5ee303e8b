import Mathlib.Data.List.Induction
import Mathlib.Tactic.Ring
import Mathlib.Data.List.Basic

set_option autoImplicit false

/-!
# Big-endian numbers

## Main definitions

* `BigEndian.put` — the last bytes of a number, the most significant first.
* `BigEndian.read` — the number that bytes stand for.

## Main results

* `BigEndian.read_put` — reading what was put gives the number, if it fits.
-/

namespace BigEndian

open List

/-- The last `k` bytes of a number. -/
def put : ℕ → ℕ → List UInt8
  | 0, _ => []
  | k + 1, n => UInt8.ofNat (n / 256 ^ k) :: put k n

def read (bytes : List UInt8) : ℕ :=
  bytes.foldl (fun n b => n * 256 + b.toNat) 0

@[simp] lemma length_put (k n : ℕ) : (put k n).length = k := by
  induction k with
  | zero => rfl
  | succ k ih => rw [put, length_cons, ih]

lemma foldl_put (k n acc : ℕ) :
    (put k n).foldl (fun n b => n * 256 + b.toNat) acc = acc * 256 ^ k + n % 256 ^ k := by
  induction k generalizing acc with
  | zero => rw [put, foldl_nil, pow_zero, Nat.mod_one, Nat.mul_one, Nat.add_zero]
  | succ k ih =>
    have hmod : n % 256 ^ (k + 1) = n % 256 ^ k + 256 ^ k * (n / 256 ^ k % 256) := by
      rw [pow_succ, Nat.mod_mul]
    have hbyte : (UInt8.ofNat (n / 256 ^ k)).toNat = n / 256 ^ k % 256 := UInt8.toNat_ofNat'
    rw [put, foldl_cons, ih, hmod, hbyte]
    ring

theorem read_put {k n : ℕ} (h : n < 256 ^ k) : read (put k n) = n := by
  unfold read
  rw [foldl_put, Nat.zero_mul, Nat.zero_add, Nat.mod_eq_of_lt h]

lemma read_lt (bytes : List UInt8) : read bytes < 256 ^ bytes.length := by
  induction bytes using reverseRecOn with
  | nil => decide
  | append_singleton bytes b ih =>
    unfold read at ih ⊢
    have hb := b.toNat_lt
    simp only [foldl_append, foldl_cons, foldl_nil, length_append, length_singleton]
    omega

end BigEndian
