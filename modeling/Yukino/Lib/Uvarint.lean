import Mathlib.Data.Fin.Basic
import Mathlib.Tactic.Ring

set_option autoImplicit false

/-!
# Variable-length integers

The base-128 encoding of `encoding/binary`: seven bits of the number in every byte, the lowest
first, and the high bit set in every byte but the last.

## Main definitions

* `Uvarint.put` — the bytes of a number.
* `Uvarint.read` — a number from a stream of bytes, with the errors of `binary.ReadUvarint`.

## Main results

* `Uvarint.read_put` — a number that fits 64 bits is read back, and the rest of the stream is left.
* `Uvarint.read_of_prefix` — an encoding that is cut off is not read.
* `Uvarint.length_put_le` — the length of the encoding.
-/

namespace Uvarint

open List

abbrev Byte := Fin 256

instance byteNeZero : NeZero 256 := ⟨by decide⟩

/-- How reading a stream of bytes can fail. -/
inductive ReadError
  /-- The stream ends before the first byte. -/
  | eof
  /-- The stream ends in the middle of a value. -/
  | unexpectedEOF
  /-- The number does not fit 64 bits. -/
  | overflow
  deriving DecidableEq, Repr

/-- The byte with the given low seven bits, and the high bit set if `more`. -/
def chunk (low : ℕ) (more : Bool) : Byte :=
  ⟨low % 128 + if more then 128 else 0, by split <;> omega⟩

/-- `binary.PutUvarint`, by rounds: ten are enough for 64 bits. -/
def putFrom : ℕ → ℕ → List Byte
  | 0, x => [chunk x false]
  | rounds + 1, x => if x < 128 then [chunk x false] else chunk x true :: putFrom rounds (x / 128)

def put (x : ℕ) : List Byte :=
  putFrom 9 x

/-- `binary.ReadUvarint`: `rounds` bytes may follow, and the next one is for the bits from
`shift` on. -/
def readFrom : ℕ → ℕ → ℕ → List Byte → Except ReadError (ℕ × List Byte)
  | 0, _, _, _ => .error .overflow
  | _ + 1, shift, _, [] => .error (if shift = 0 then .eof else .unexpectedEOF)
  | rounds + 1, shift, x, b :: rest =>
    if b.val < 128 then
      if rounds = 0 ∧ 1 < b.val then .error .overflow
      else .ok (x + b.val * 2 ^ shift, rest)
    else readFrom rounds (shift + 7) (x + b.val % 128 * 2 ^ shift) rest

def read (bytes : List Byte) : Except ReadError (ℕ × List Byte) :=
  readFrom 10 0 0 bytes

lemma readFrom_putFrom (rounds shift x y : ℕ) (rest : List Byte) (hy : y < 2 ^ (7 * rounds + 1)) :
    readFrom (rounds + 1) shift x (putFrom rounds y ++ rest) = .ok (x + y * 2 ^ shift, rest) := by
  induction rounds generalizing shift x y with
  | zero =>
    have hval : (chunk y false).val = y := by
      simp only [chunk, Bool.false_eq_true, if_false]
      omega
    simp only [putFrom, cons_append, nil_append, readFrom, hval]
    rw [if_pos (by omega), if_neg (by omega)]
  | succ rounds ih =>
    unfold putFrom
    split_ifs with hsmall
    · have hval : (chunk y false).val = y := by
        simp only [chunk, Bool.false_eq_true, if_false]
        omega
      simp only [cons_append, nil_append, readFrom, hval]
      rw [if_pos hsmall, if_neg (by omega)]
    · -- a byte with the high bit, and the rest of the number in the rounds that are left
      have hval : (chunk y true).val = y % 128 + 128 := by simp [chunk]
      have hmod : (y % 128 + 128) % 128 = y % 128 := by omega
      simp only [cons_append, readFrom, hval, hmod]
      rw [if_neg (by omega), ih]
      · congr 2
        calc x + y % 128 * 2 ^ shift + y / 128 * 2 ^ (shift + 7)
            = x + (y % 128 + 128 * (y / 128)) * 2 ^ shift := by ring
          _ = x + y * 2 ^ shift := by rw [Nat.mod_add_div]
      · rw [Nat.div_lt_iff_lt_mul (by norm_num)]
        calc y < 2 ^ (7 * (rounds + 1) + 1) := hy
          _ = 2 ^ (7 * rounds + 1) * 128 := by
            rw [show 7 * (rounds + 1) + 1 = 7 * rounds + 1 + 7 by ring, pow_add]
            norm_num

/-- **Round trip.** A number of 64 bits is read back. -/
theorem read_put {x : ℕ} (hx : x < 2 ^ 64) (rest : List Byte) :
    read (put x ++ rest) = .ok (x, rest) := by
  have h := readFrom_putFrom 9 0 0 x rest (by simpa using hx)
  simpa [read, put] using h

lemma readFrom_of_prefix {rounds y : ℕ} {bytes : List Byte} (hpre : bytes <+: putFrom rounds y)
    (hne : bytes ≠ putFrom rounds y) (shift x : ℕ) :
    readFrom (rounds + 1) shift x bytes =
      .error (if shift = 0 ∧ bytes = [] then .eof else .unexpectedEOF) := by
  induction rounds generalizing y bytes shift x with
  | zero =>
    rcases prefix_cons_iff.1 hpre with rfl | ⟨rest, rfl, hrest⟩
    · simp [readFrom]
    · exact absurd (by rw [prefix_nil.1 hrest]; rfl) hne
  | succ rounds ih =>
    unfold putFrom at hpre hne
    split_ifs at hpre hne with hsmall
    · rcases prefix_cons_iff.1 hpre with rfl | ⟨rest, rfl, hrest⟩
      · simp [readFrom]
      · exact absurd (by rw [prefix_nil.1 hrest]) hne
    · rcases prefix_cons_iff.1 hpre with rfl | ⟨rest, rfl, hrest⟩
      · simp [readFrom]
      · -- the first byte announces another one
        have hval : ¬ (chunk y true).val < 128 := by simp [chunk]
        rw [readFrom, if_neg hval, ih hrest fun heq => hne (by rw [heq])]
        simp

/-- A number whose encoding is cut off is not read. -/
lemma read_of_prefix {x : ℕ} {bytes : List Byte} (hpre : bytes <+: put x) (hne : bytes ≠ put x) :
    read bytes = .error (if bytes = [] then .eof else .unexpectedEOF) := by
  have h := readFrom_of_prefix hpre hne 0 0
  simpa [read] using h

lemma length_putFrom_le (rounds k x : ℕ) (hx : x < 2 ^ (7 * (k + 1))) :
    (putFrom rounds x).length ≤ k + 1 := by
  induction rounds generalizing k x with
  | zero => simp [putFrom]
  | succ rounds ih =>
    unfold putFrom
    split_ifs with hsmall
    · simp
    · cases k with
      | zero => exact absurd hx (by simpa using hsmall)
      | succ k =>
        have hdiv : x / 128 < 2 ^ (7 * (k + 1)) := by
          rw [Nat.div_lt_iff_lt_mul (by norm_num)]
          calc x < 2 ^ (7 * (k + 1 + 1)) := hx
            _ = 2 ^ (7 * (k + 1)) * 128 := by
              rw [show 7 * (k + 1 + 1) = 7 * (k + 1) + 7 by ring, pow_add]
              norm_num
        have := ih k _ hdiv
        rw [length_cons]
        omega

/-- A number below `2 ^ (7 * (k + 1))` takes at most `k + 1` bytes. -/
lemma length_put_le {k x : ℕ} (hx : x < 2 ^ (7 * (k + 1))) : (put x).length ≤ k + 1 :=
  length_putFrom_le 9 k x hx

lemma length_put_pos (x : ℕ) : 0 < (put x).length := by
  unfold put putFrom
  split_ifs <;> simp

end Uvarint
