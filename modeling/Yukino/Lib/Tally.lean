import Mathlib.Data.List.AList
import Mathlib.Data.List.Sort
import Mathlib.Data.Finset.Card

set_option autoImplicit false

/-!
# Counting the entries of an association list

How many keys of an association list have a value with some property, and what the element
at a given position of a sorted list says about the number of larger ones. Both are ways to
recognise a majority.

## Main definitions

* `Tally.keysWhere` — the keys whose value has a property.

## Main results

* `Tally.card_keysWhere` — their number is the number of entries with the property.
* `Tally.lt_countP_of_sorted` — the element at position `k` of a list in descending order is reached
  by more than `k` elements.
-/

namespace Tally

open List

section Keys

variable {K V : Type} [DecidableEq K]

/-- The keys whose value has the property `p`. -/
def keysWhere (a : AList fun _ : K => V) (p : V → Bool) : Finset K :=
  ((a.entries.filter fun e => p e.2).map Sigma.fst).toFinset

variable (a : AList fun _ : K => V) (p : V → Bool)

lemma card_keysWhere : (keysWhere a p).card = a.entries.countP fun e => p e.2 := by
  have hnodup : ((a.entries.filter fun e => p e.2).map Sigma.fst).Nodup := by
    have hsub : ((a.entries.filter fun e => p e.2).map Sigma.fst).Sublist a.keys :=
      (filter_sublist).map Sigma.fst
    exact hsub.nodup a.keys_nodup
  rw [keysWhere, toFinset_card_of_nodup hnodup, length_map, ← countP_eq_length_filter]

lemma mem_keysWhere {k : K} : k ∈ keysWhere a p ↔ ∃ v, a.lookup k = some v ∧ p v = true := by
  rw [keysWhere, mem_toFinset, mem_map]
  constructor
  · rintro ⟨⟨k', v⟩, he, rfl⟩
    rw [mem_filter] at he
    exact ⟨v, AList.mem_lookup_iff.2 he.1, he.2⟩
  · rintro ⟨v, hv, hp⟩
    exact ⟨⟨k, v⟩, mem_filter.2 ⟨AList.mem_lookup_iff.1 hv, hp⟩, rfl⟩

end Keys

/-- The keys of an association list, counted as a set. -/
lemma length_keys {K V : Type} [DecidableEq K] (a : AList fun _ : K => V) {ids : Finset K}
    (h : ∀ k, k ∈ a ↔ k ∈ ids) : a.keys.length = ids.card := by
  rw [← toFinset_card_of_nodup a.keys_nodup]
  congr 1
  ext k
  rw [mem_toFinset, ← AList.mem_keys, h]

/-- In a list in descending order the element at position `k` is reached by the elements at
the positions up to `k`. -/
lemma lt_countP_of_sorted {xs : List ℕ} {k mid : ℕ}
    (h : (xs.insertionSort (· ≥ ·))[k]? = some mid) :
    k < xs.countP fun x => mid ≤ x := by
  rw [← (perm_insertionSort (· ≥ ·) xs).countP_eq]
  have hsorted : (xs.insertionSort (· ≥ ·)).Pairwise (· ≥ ·) := pairwise_insertionSort _ xs
  generalize xs.insertionSort (· ≥ ·) = ys at h hsorted
  have hlt : k < ys.length := (List.getElem?_eq_some_iff.1 h).1
  have htake : (ys.take (k + 1)).countP (fun x => mid ≤ x) = k + 1 := by
    rw [countP_eq_length.2, length_take]
    · omega
    · intro x hx
      obtain ⟨i, hi, rfl⟩ := getElem_of_mem hx
      rw [length_take] at hi
      rw [getElem_take, decide_eq_true_eq]
      have hmid : ys[k] = mid := (List.getElem?_eq_some_iff.1 h).2
      rcases Nat.eq_or_lt_of_le (show i ≤ k by omega) with rfl | hik
      · exact hmid.ge
      · rw [← hmid]
        exact pairwise_iff_getElem.1 hsorted i k (by omega) hlt hik
  calc k < k + 1 := Nat.lt_succ_self k
    _ = (ys.take (k + 1)).countP (fun x => mid ≤ x) := htake.symm
    _ ≤ ys.countP (fun x => mid ≤ x) := (take_sublist _ _).countP_le

end Tally
