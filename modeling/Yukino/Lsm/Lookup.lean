import Yukino.Lsm.SstSpec

set_option autoImplicit false

/-!
# Which tables find all their keys

The index of a table starts with the separator in front of the first key, as the entry of an empty
block. The separator is the first key with its last byte decremented: if this byte is `0` it wraps
around to `255`, and the separator of the empty key is the empty key. In both cases the separator
is not below the first key, so the search for the first key ends at the empty block.

## Main definitions

* `lookup` — `Get` of a node whose table is written with a Bloom filter.

## Main results

* `get_eq_none_of_le` — a key that is not behind any entry of the index is not found.
* `lookup_exact_iff` — a table finds exactly its pairs if and only if its first key is
  separable.
-/

namespace Yukino.Lsm

open Outcome SSTReader List
open SortedAssoc (Ascending)

/-- `Get` of the node of a table that is written with a Bloom filter of `m` bits. Where there is no
such filter, `Hash` stops the program when the first block is finished. -/
def lookup (conf : Config) (m level seq : ℕ) (kvs : List KV) (key : Bytes) :
    Except Fault (Option Bytes) :=
  match BloomFilter.ofBits m with
  | none => .error .panic
  | some bf => do
    let n ← nodeOf { conf with filter := bf.filter } level seq kvs
    n.get { conf with filter := bf.filter } key

section Lookup

variable {conf : Config} {key : Bytes} {index : List Index} {kvs : List KV} {kv₀ : KV}

/-! ## Keys in front of the index -/

/-- The binary search for a key that is not behind any entry ends at the first one. -/
lemma binarySearchIndex_of_forall_le (hle : ∀ e ∈ index, key ≤ e.key) {rounds start stop : ℕ}
    (hstart : start ≤ stop) (hstop : stop < index.length) (hrounds : stop - start ≤ rounds) :
    Node.binarySearchIndex index key rounds start stop = index[start]? := by
  have hfilter : index[start]?.filter (key ≤ ·.key) = index[start]? := by
    rw [getElem?_eq_getElem (by omega), Option.filter_some,
      if_pos (by simpa using hle _ (getElem_mem _))]
  induction rounds generalizing stop with
  | zero => exact hfilter
  | succ rounds ih =>
    unfold Node.binarySearchIndex
    split_ifs with heq
    · exact hfilter
    · have hmid : start + (stop - start) / 2 < index.length := by omega
      simp only [getElem?_eq_getElem hmid]
      rw [if_neg (not_lt.2 (hle _ (getElem_mem hmid)))]
      exact ih (by omega) hmid (by omega)

/-- Such a key is looked for in the empty block of the first entry. -/
lemma get_eq_none_of_le {n : Node} {separator : Bytes}
    (hhead : n.index.head? = some ⟨separator, 0, 0⟩) (hle : ∀ e ∈ n.index, key ≤ e.key) :
    n.get conf key = .ok none := by
  have hpos : 0 < n.index.length := by
    rw [length_pos_iff]
    intro hnil
    rw [hnil] at hhead
    cases hhead
  have hfirst : n.index[0]? = some ⟨separator, 0, 0⟩ := by
    rw [← hhead, head?_eq_getElem?]
  unfold Node.get
  rw [if_neg hpos.ne', binarySearchIndex_of_forall_le hle (Nat.zero_le _) (by omega) (by omega),
    hfirst]
  simp only
  cases n.blockToFilter.lookup 0 with
  | none => rfl
  | some bitmap =>
    simp only
    split_ifs
    · rfl
    · simp [readBlock, readFull, readBlockData, readRecords_nil, ok_bind]

/-! ## First keys without a separator below them -/

lemma le_separator {first : Bytes} (h : Separable first = false) :
    first ≤ getSeparatorBetween [] first := by
  rcases eq_nil_or_concat' first with rfl | ⟨init, last, rfl⟩
  · exact le_rfl
  · obtain rfl : last = 0 := by simpa [Separable] using h
    rw [getSeparatorBetween, getLast?_concat]
    simp only [dropLast_concat]
    exact le_of_lt (List.Lex.append_left _ (.rel (by decide)) init)

/-- No entry of the index is in front of the first key then. -/
lemma le_of_mem_index (hasc : Ascending (kv₀ :: kvs)) (hsep : Separable kv₀.1 = false) :
    ∀ e ∈ ((SSTWriter.appendAll conf {} (kv₀ :: kvs)).finish conf).index, kv₀.1 ≤ e.key := by
  by_cases hnil : kv₀.1 = []
  · intro e _
    rw [hnil]
    exact not_lt.1 (not_lt_nil _)
  have hle : ∀ kv ∈ kv₀ :: kvs, kv₀.1 ≤ kv.1 := by
    intro kv hkv
    rcases mem_cons.1 hkv with rfl | hkv
    · exact le_rfl
    · exact (rel_of_pairwise_cons hasc hkv).le
  -- no key is empty, so every later entry is the last key of a block
  have hkeys : ∀ kv ∈ kv₀ :: kvs, kv.1 ≠ [] := by
    intro kv hkv heq
    obtain ⟨a, l, hcons⟩ := exists_cons_of_ne_nil hnil
    refine absurd (hle kv hkv) (not_le.2 ?_)
    rw [heq, hcons]
    exact List.Lex.nil
  obtain ⟨blocks, hflat, hblocks, hfinish⟩ := finish_appendAll conf hkeys
  intro e he
  rw [hfinish] at he
  rcases mem_cons.1 he with rfl | he
  · exact le_separator hsep
  · obtain ⟨b, hb, hkey⟩ := entries_key_of_mem he
    obtain ⟨v, hv⟩ := lastKey_mem (p := []) (hblocks b hb)
    have hmem := mem_flatten.2 ⟨b, hb, hv⟩
    rw [hflat] at hmem
    rw [hkey]
    exact hle _ hmem

end Lookup

/-! ## Exact lookup -/

/-- **Which tables find exactly their pairs.** For a non-empty list of pairs with strictly
ascending keys and a Bloom filter of `m` bits, `Get` gives the value of every pair and nothing for
all other keys if and only if the first key is neither empty nor ends in a zero byte, and the filter
can be used: `uint32(m)`, by which it divides, is not zero, and the length of its bitmap does not
overflow.

**Proof sketch.** If the separator is below the first key then the index ascends, and the search
finds the block in which the key must be. Otherwise no entry of the index is in front of the first
key, so the search for it ends at the first entry, which stands for an empty block. -/
theorem lookup_exact_iff (conf : Config) (m level seq : ℕ) {kvs : List KV} (hne : kvs ≠ [])
    (hasc : Ascending kvs) (hshort : Short kvs) :
    (∀ key, lookup conf m level seq kvs key = .ok (kvs.lookup key)) ↔
      (∀ kv ∈ kvs.head?, Separable kv.1 = true) ∧ m % 2 ^ 32 ≠ 0 ∧ m + 7 < 2 ^ 63 := by
  obtain ⟨kv₀, rest, rfl⟩ := exists_cons_of_ne_nil hne
  by_cases hm : m + 7 < 2 ^ 63 ∧ m % 2 ^ 32 ≠ 0
  · have hfilter : BloomFilter.ofBits m = some ⟨m, hm.1, hm.2⟩ := dif_pos hm
    simp only [lookup, hfilter]
    generalize BloomFilter.filter ⟨m, hm.1, hm.2⟩ = filter
    obtain ⟨n, hn, -, -, hindex, -⟩ := exists_nodeOf { conf with filter } level seq kv₀ rest
    rw [hn]
    simp only [ok_bind]
    constructor
    · intro hget
      refine ⟨fun kv hkv => ?_, hm.2, hm.1⟩
      obtain rfl : kv₀ = kv := by simpa using hkv
      by_contra hsep
      have hnone : n.get { conf with filter } kv₀.1 = .ok none := by
        have hhead := head?_index_finish { conf with filter } kv₀ rest
        rw [← hindex] at hhead
        refine get_eq_none_of_le hhead ?_
        rw [hindex]
        exact le_of_mem_index hasc (by simpa using hsep)
      have hsome := hget kv₀.1
      rw [hnone, lookup_cons_self] at hsome
      cases hsome
    · rintro ⟨hsep, -, -⟩ key
      exact get_nodeOf hasc (hsep kv₀ rfl) hshort hn key
  · have hfilter : BloomFilter.ofBits m = none := dif_neg hm
    simp only [lookup, hfilter]
    constructor
    · intro hget
      cases hget []
    · rintro ⟨-, hmod, hlt⟩
      exact absurd ⟨hlt, hmod⟩ hm

/-- Two keys in two blocks. -/
theorem lookup_exact_iff_two :
    (∀ key, lookup (newConfig 0 0 0 1 none) 64 0 1 [([97], [1]), ([97, 0], [2])] key =
        .ok ([([97], [1]), ([97, 0], [2])].lookup key)) ↔
      (∀ kv ∈ [(([97], [1]) : KV), ([97, 0], [2])].head?, Separable kv.1 = true) ∧
        64 % 2 ^ 32 ≠ 0 ∧ 64 + 7 < 2 ^ 63 :=
  lookup_exact_iff (newConfig 0 0 0 1 none) 64 0 1 (by simp)
    (by unfold Ascending; decide) (by simp [Short])

/-- The key `"a\x00"` is written into a table of its own and is not found. -/
theorem first_key_lost :
    lookup (newConfig 0 0 0 0 none) 1024 0 1 [([97, 0], [1])] [97, 0] = .ok none := by
  decide +kernel

end Yukino.Lsm
