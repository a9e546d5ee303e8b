import Mathlib.Data.List.Basic
import Yukino.Lib.Fnv
import Yukino.Lib.MachineInt
import Yukino.Lib.Uvarint

set_option autoImplicit false

/-!
# Bloom filters of `components/lsm_tree/filter`

A filter is asked before a data block is read: it may say that a key can be in the block when it
is not, but never that a key of the block is not there.

## Main definitions

* `Filter` — a filter with its contract.
* `BloomFilter`, with `bestK`, `bitmap`, `hash` and `exist`.
* `BloomFilter.filter` — a Bloom filter is a filter.

## Main results

* `BloomFilter.exist_hash` — no key that was added is denied.
* `BloomFilter.probes_in_bitmap` — `Hash` and `Exist` make the same probes, within the bitmap.

## Design

The keys added since the last `Reset` are an argument of `hash`: one writer at a time fills the
filter of the configuration, and it resets the filter with every block it finishes.
-/

namespace Yukino.Lsm

open Uvarint List

/-- A byte string. -/
abbrev Bytes := List Byte

/-- `filter.Filter`: the bitmap of the keys of a block, and the question whether a key can be
among them. -/
structure Filter where
  hash : List Bytes → Bytes
  exist : Bytes → Bytes → Bool
  exist_hash : ∀ keys, ∀ key ∈ keys, exist (hash keys) key = true

/-- `BloomFilter`, with the number of its bits: the length of the bitmap does not overflow, and
`uint32(m)` can divide. -/
structure BloomFilter where
  m : ℕ
  lt : m + 7 < 2 ^ 63
  mod_ne : m % 2 ^ 32 ≠ 0

namespace BloomFilter

/-- `NewBloomFilter(m)`, for the numbers of bits with which `Hash` does not stop the program. -/
def ofBits (m : ℕ) : Option BloomFilter :=
  if h : m + 7 < 2 ^ 63 ∧ m % 2 ^ 32 ≠ 0 then some ⟨m, h.1, h.2⟩ else none

/-- The byte with one more bit set. -/
def orBit (b : Byte) (j : Fin 8) : Byte :=
  ⟨b.val ||| 2 ^ j.val, Nat.or_lt_two_pow (n := 8) b.isLt
    (Nat.pow_lt_pow_right (by norm_num) j.isLt)⟩

/-- Set a bit: `bitmap[targetBit>>3] |= 1 << (targetBit & 7)`. -/
def setBit (bitmap : Bytes) (targetBit : ℕ) : Bytes :=
  bitmap.modify (targetBit / 8) (orBit · (Fin.ofNat 8 targetBit))

/-- Test a bit: `bitmap[targetBit>>3] & (1 << (targetBit & 7)) != 0`. -/
def testBit (bitmap : Bytes) (targetBit : ℕ) : Bool :=
  (bitmap.getD (targetBit / 8) 0).val.testBit (targetBit % 8)

def hashKey (key : Bytes) : UInt32 :=
  Fnv.sum32 (key.map UInt8.ofFin)

variable (bf : BloomFilter)

/-- The number of probes for a number of keys, after its conversion to `uint8`. -/
def bestK (keyLen : ℕ) : ℕ :=
  min (max ((((MachineInt.int64 (69 * bf.m)).tdiv 100).tdiv keyLen) % 256).toNat 1) 30

def bitmapLen : ℕ :=
  (bf.m + 7) / 8

def bitmap (k : ℕ) : Bytes :=
  replicate bf.bitmapLen 0 ++ [Fin.ofNat 256 k]

/-- The bits that stand for a hash value. -/
def targetBits (k : ℕ) (hashedKey : UInt32) : List ℕ :=
  let delta := (hashedKey >>> 17) ||| (hashedKey <<< 15)
  (range k).map fun i => (hashedKey + UInt32.ofNat i * delta).toNat % (bf.m % 2 ^ 32)

def hash (keys : List Bytes) : Bytes :=
  let k := bf.bestK keys.length
  (keys.flatMap fun key => bf.targetBits k (hashKey key)).foldl setBit (bf.bitmap k)

def exist (bitmap key : Bytes) : Bool :=
  let k := (bitmap.getLast?.getD 0).val
  (bf.targetBits k (hashKey key)).all (testBit bitmap)

/-! ## No false negatives -/

lemma bestK_le (keyLen : ℕ) : bf.bestK keyLen ≤ 30 :=
  min_le_right _ _

variable {t : ℕ} {bits : Bytes} {ts : List ℕ}

lemma targetBits_lt {k : ℕ} {h : UInt32} (ht : t ∈ bf.targetBits k h) : t < bf.m := by
  obtain ⟨i, -, rfl⟩ := mem_map.1 ht
  exact (Nat.mod_lt _ (Nat.pos_of_ne_zero bf.mod_ne)).trans_le (Nat.mod_le _ _)

/-- A bit lies in the part of the bitmap before the number of probes. -/
lemma div_lt_bitmapLen (ht : t < bf.m) : t / 8 < bf.bitmapLen := by
  unfold bitmapLen
  omega

@[simp] lemma length_setBit (bits : Bytes) (t : ℕ) : (setBit bits t).length = bits.length :=
  length_modify ..

/-- Setting a bit sets it, and no other one. -/
lemma testBit_setBit {u : ℕ} (h : t / 8 < bits.length) :
    testBit (setBit bits u) t = (testBit bits t || decide (t = u)) := by
  unfold testBit setBit
  rw [getD_eq_getElem?_getD, getD_eq_getElem?_getD, getElem?_modify, getElem?_eq_getElem h]
  rw [Option.map_eq_map, Option.map_some, Option.getD_some, Option.getD_some]
  split_ifs with hbyte
  · have hbit : u % 8 = t % 8 ↔ t = u := by omega
    rw [orBit, Nat.testBit_or, Nat.testBit_two_pow]
    simp [hbit]
  · rw [decide_eq_false (by rintro rfl; exact hbyte rfl), Bool.or_false]

lemma testBit_foldl (h : t / 8 < bits.length) :
    testBit (ts.foldl setBit bits) t = (testBit bits t || decide (t ∈ ts)) := by
  induction ts generalizing bits with
  | nil => simp
  | cons u ts ih =>
    rw [foldl_cons, ih (by simpa using h), testBit_setBit h, Bool.or_assoc, ← Bool.decide_or]
    simp only [mem_cons]

/-- Setting bits before the last byte leaves the last byte. -/
lemma getLast?_foldl {n : ℕ} (hlen : bits.length = n + 1)
    (hts : ∀ t ∈ ts, t / 8 < n) : (ts.foldl setBit bits).getLast? = bits.getLast? := by
  induction ts generalizing bits with
  | nil => rfl
  | cons t ts ih =>
    rw [foldl_cons, ih (by simpa using hlen) (forall_mem_cons.1 hts).2]
    have ht := hts t mem_cons_self
    rw [getLast?_eq_getElem?, getLast?_eq_getElem?, length_setBit]
    unfold setBit
    rw [getElem?_modify_ne _ _ (by omega)]

lemma length_hash (keys : List Bytes) : (bf.hash keys).length = bf.bitmapLen + 1 :=
  foldlRecOn (motive := fun bits => bits.length = bf.bitmapLen + 1) _ _ (by simp [bitmap])
    fun bits h t _ => (length_setBit bits t).trans h

/-- The number of probes is read back from the last byte. -/
lemma getLast?_hash (keys : List Bytes) :
    ((bf.hash keys).getLast?.getD 0).val = bf.bestK keys.length := by
  have hbits : ∀ t ∈ keys.flatMap fun key => bf.targetBits (bf.bestK keys.length) (hashKey key),
      t / 8 < bf.bitmapLen := by
    intro t ht
    obtain ⟨a, -, ht⟩ := mem_flatMap.1 ht
    exact bf.div_lt_bitmapLen (bf.targetBits_lt ht)
  have hlen : (bf.bitmap (bf.bestK keys.length)).length = bf.bitmapLen + 1 := by simp [bitmap]
  have := bf.bestK_le keys.length
  unfold hash
  rw [getLast?_foldl hlen hbits]
  simp [bitmap]
  omega

/-- `Hash` sets the bits of the keys, and no other ones. -/
lemma testBit_hash (keys : List Bytes) (ht : t / 8 < bf.bitmapLen) :
    testBit (bf.hash keys) t = true ↔
      ∃ key ∈ keys, t ∈ bf.targetBits (bf.bestK keys.length) (hashKey key) := by
  have hempty : testBit (bf.bitmap (bf.bestK keys.length)) t = false := by
    rw [testBit, bitmap, getD_eq_getElem?_getD, getElem?_append_left (by simpa using ht)]
    simp [ht]
  unfold hash
  rw [testBit_foldl (by simp [bitmap]; omega), hempty, Bool.false_or, decide_eq_true_eq,
    mem_flatMap]

/-- `Exist` makes as many probes as `Hash` did. -/
lemma exist_hash_iff (keys : List Bytes) (key : Bytes) : bf.exist (bf.hash keys) key = true ↔
    ∀ t ∈ bf.targetBits (bf.bestK keys.length) (hashKey key), testBit (bf.hash keys) t = true := by
  unfold exist
  rw [bf.getLast?_hash, all_eq_true]

/-- **No false negatives.** -/
theorem exist_hash (keys : List Bytes) (key : Bytes) (hkey : key ∈ keys) :
    bf.exist (bf.hash keys) key = true :=
  (bf.exist_hash_iff keys key).2 fun _ ht =>
    (bf.testBit_hash keys (bf.div_lt_bitmapLen (bf.targetBits_lt ht))).2 ⟨key, hkey, ht⟩

/-- **The probes of a filter.** `Hash` and `Exist` make the same number `k` of probes for a key,
between 1 and 30: the `i`-th one is at the bit `hash + i * delta` modulo `m`, in `uint32`, and none
touches the last byte of the bitmap. `Hash` sets exactly the bits of the keys, `Exist` asks for
those of its key, and no key that was added is denied. -/
theorem probes_in_bitmap (m : ℕ) (hpos : 1 ≤ m) (hlt : m < 2 ^ 32) (keys : List Bytes)
    (_hkeys : keys ≠ []) : ∃ bf k, ofBits m = some bf ∧ bf.bestK keys.length = k ∧
      1 ≤ k ∧ k ≤ 30 ∧ ((bf.hash keys).getLast?.getD 0).val = k ∧
      (∀ key, (bf.targetBits k (hashKey key)).length = k ∧
        ∀ i < k, (bf.targetBits k (hashKey key))[i]? = some ((hashKey key + UInt32.ofNat i *
          ((hashKey key >>> 17) ||| (hashKey key <<< 15))).toNat % m)) ∧
      (∀ key, ∀ t ∈ bf.targetBits k (hashKey key), t / 8 + 1 < (bf.hash keys).length) ∧
      (∀ t, t / 8 + 1 < (bf.hash keys).length → (testBit (bf.hash keys) t = true ↔
        ∃ key ∈ keys, t ∈ bf.targetBits k (hashKey key))) ∧
      (∀ key, bf.exist (bf.hash keys) key = true ↔
        ∀ t ∈ bf.targetBits k (hashKey key), testBit (bf.hash keys) t = true) ∧
      ∀ key ∈ keys, bf.exist (bf.hash keys) key = true := by
  have hmod : m % 2 ^ 32 = m := Nat.mod_eq_of_lt hlt
  refine ⟨⟨m, by omega, by omega⟩, _, dif_pos ⟨by omega, by omega⟩, rfl, ?_, bestK_le _ _,
    getLast?_hash _ _, fun key => ⟨?_, fun i hi => ?_⟩, fun key t ht => ?_, fun t ht => ?_,
    exist_hash_iff _ keys, exist_hash _ keys⟩
  · simp [bestK]
  · simp [targetBits]
  · simp only [targetBits, getElem?_map, getElem?_range hi, Option.map_some, hmod]
  · rw [length_hash]
    exact Nat.succ_lt_succ (div_lt_bitmapLen _ (targetBits_lt _ ht))
  · rw [length_hash] at ht
    exact testBit_hash _ keys (Nat.lt_of_succ_lt_succ ht)

/-- Three keys in 64 bits, with 14 probes each. -/
theorem probes_in_bitmap_three : ∃ bf, ofBits 64 = some bf ∧ bf.bestK 3 = 14 ∧
    ∀ key ∈ [[97], [98], [97, 98]], (bf.targetBits 14 (hashKey key)).length = 14 ∧
      bf.exist (bf.hash [[97], [98], [97, 98]]) key = true := by
  obtain ⟨bf, k, hbf, hk, -, -, -, hlen, -, -, -, hexist⟩ := probes_in_bitmap 64 (by decide)
    (by decide) [[97], [98], [97, 98]] (by decide)
  have hk' : k = 14 := by
    rw [← hk, ← Option.some.inj hbf]
    decide
  subst hk'
  exact ⟨bf, hbf, hk, fun key hkey => ⟨(hlen key).1, hexist key hkey⟩⟩

/-- A Bloom filter keeps the contract of a filter. -/
def filter : Filter where
  hash := bf.hash
  exist := bf.exist
  exist_hash := bf.exist_hash

end BloomFilter

end Yukino.Lsm
