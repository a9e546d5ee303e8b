import Mathlib

set_option autoImplicit false

/-!
# Association lists in ascending order of their keys

The bottom level of a skip list, a sorted table on disk and a merged run are all lists of pairs in
strictly ascending order of their keys.

## Main definitions

* `SortedAssoc.Ascending` — the keys are strictly ascending.
* `SortedAssoc.put` — insert a pair, or replace the value of its key.
* `SortedAssoc.putAll` — insert the pairs of a list one after another.

## Main results

* `SortedAssoc.Ascending.put`, `SortedAssoc.Ascending.putAll` — the order is kept.
* `SortedAssoc.lookup_put`, `SortedAssoc.lookup_putAll` — the last value counts.
* `SortedAssoc.Ascending.lookup_reverse` — a key is there once.
-/

namespace SortedAssoc

open List Option

variable {κ ν : Type} [LinearOrder κ]

/-- The keys of the list are strictly ascending. -/
def Ascending (l : List (κ × ν)) : Prop :=
  l.Pairwise fun a b => a.1 < b.1

/-- Insert a pair in front of the first greater key, or replace the value of an equal one. -/
def put (k : κ) (v : ν) : List (κ × ν) → List (κ × ν)
  | [] => [(k, v)]
  | a :: l =>
    if a.1 < k then a :: put k v l else if a.1 = k then (a.1, v) :: l else (k, v) :: a :: l

/-- Insert the pairs of a list, the first one first. -/
def putAll (pairs init : List (κ × ν)) : List (κ × ν) :=
  pairs.foldl (fun l a => put a.1 a.2 l) init

lemma mem_put {k : κ} {v : ν} {l : List (κ × ν)} {a : κ × ν} (h : a ∈ put k v l) :
    a = (k, v) ∨ a ∈ l := by
  induction l with
  | nil => exact .inl (by simpa [put] using h)
  | cons b l ih =>
    unfold put at h
    split_ifs at h with hlt heq
    · rcases mem_cons.1 h with rfl | h
      · exact .inr mem_cons_self
      · exact (ih h).imp_right (mem_cons_of_mem _)
    · rcases mem_cons.1 h with rfl | h
      · exact .inl (by rw [heq])
      · exact .inr (mem_cons_of_mem _ h)
    · rcases mem_cons.1 h with rfl | h
      · exact .inl rfl
      · exact .inr h

lemma Ascending.put {k : κ} {v : ν} {l : List (κ × ν)} (h : Ascending l) :
    Ascending (put k v l) := by
  induction l with
  | nil => exact pairwise_singleton _ _
  | cons a l ih =>
    obtain ⟨ha, hl⟩ := pairwise_cons.1 h
    unfold SortedAssoc.put
    split_ifs with hlt heq
    · refine pairwise_cons.2 ⟨fun b hb => ?_, ih hl⟩
      rcases mem_put hb with rfl | hb
      · exact hlt
      · exact ha b hb
    · exact pairwise_cons.2 ⟨ha, hl⟩
    · have hka : k < a.1 := lt_of_le_of_ne (not_lt.1 hlt) (Ne.symm heq)
      refine pairwise_cons.2 ⟨fun b hb => ?_, h⟩
      rcases mem_cons.1 hb with rfl | hb
      · exact hka
      · exact hka.trans (ha b hb)

lemma put_ne_nil (k : κ) (v : ν) (l : List (κ × ν)) : put k v l ≠ [] := by
  cases l with
  | nil => simp [put]
  | cons a l =>
    unfold put
    split_ifs <;> simp

section Lookup

variable [BEq κ] [LawfulBEq κ]

lemma lookup_cons_ite (a : κ × ν) (l : List (κ × ν)) (k : κ) :
    (a :: l).lookup k = if k = a.1 then some a.2 else l.lookup k := by
  obtain ⟨a₁, a₂⟩ := a
  rw [lookup_cons]
  by_cases h : k = a₁
  · rw [if_pos h, beq_iff_eq.2 h]
  · rw [if_neg h, beq_eq_false_iff_ne.2 h]

/-- What a key has after a pair was inserted. -/
lemma lookup_put (k : κ) (v : ν) (l : List (κ × ν)) (k' : κ) :
    (put k v l).lookup k' = if k' = k then some v else l.lookup k' := by
  induction l with
  | nil => rw [put, lookup_cons_ite]
  | cons a l ih =>
    rw [lookup_cons_ite]
    unfold put
    by_cases hlt : a.1 < k
    · rw [if_pos hlt, lookup_cons_ite, ih]
      by_cases hk : k' = k
      · rw [if_neg (hk ▸ hlt.ne'), if_pos hk, if_pos hk]
      · rw [if_neg hk, if_neg hk]
    · rw [if_neg hlt]
      by_cases heq : a.1 = k
      · rw [if_pos heq, lookup_cons_ite, heq]
        split_ifs <;> rfl
      · rw [if_neg heq, lookup_cons_ite, lookup_cons_ite]

/-- After a list of pairs was inserted, the last pair of a key counts. -/
lemma lookup_putAll (pairs init : List (κ × ν)) (k : κ) :
    (putAll pairs init).lookup k = (pairs.reverse.lookup k).or (init.lookup k) := by
  induction pairs generalizing init with
  | nil => simp [putAll]
  | cons a pairs ih =>
    show (putAll pairs (put a.1 a.2 init)).lookup k = _
    rw [ih, lookup_put, reverse_cons, lookup_append, Option.or_assoc, lookup_cons_ite]
    split_ifs <;> rfl

/-- A pair of an ascending list is the only one of its key. -/
lemma Ascending.lookup_eq_some_iff {l : List (κ × ν)} (h : Ascending l) {k : κ} {v : ν} :
    l.lookup k = some v ↔ (k, v) ∈ l := by
  induction l with
  | nil => simp
  | cons a l ih =>
    obtain ⟨ha, hl⟩ := pairwise_cons.1 h
    rw [lookup_cons_ite, mem_cons]
    by_cases hk : k = a.1
    · have hnot : (k, v) ∉ l := fun hmem => (ha _ hmem).ne' hk
      rw [if_pos hk, some_inj, or_iff_left hnot, Prod.ext_iff]
      exact ⟨fun hv => ⟨hk, hv.symm⟩, fun hv => hv.2.symm⟩
    · rw [if_neg hk, ih hl, or_iff_right fun heq => hk (congrArg Prod.fst heq)]

/-- A list with a pair for each key finds it from either end. -/
lemma Ascending.lookup_reverse {l : List (κ × ν)} (h : Ascending l) (k : κ) :
    l.reverse.lookup k = l.lookup k := by
  induction l with
  | nil => rfl
  | cons a l ih =>
    obtain ⟨ha, hl⟩ := pairwise_cons.1 h
    rw [reverse_cons, lookup_append, ih hl, lookup_cons_ite, lookup_cons_ite]
    by_cases hk : k = a.1
    · have hnone : l.lookup k = none := by
        rw [eq_none_iff_forall_ne_some]
        intro v hv
        exact (ha _ ((Ascending.lookup_eq_some_iff hl).1 hv)).ne' hk
      rw [if_pos hk, if_pos hk, hnone, none_or]
    · rw [if_neg hk, if_neg hk, lookup_nil, or_none]

end Lookup

end SortedAssoc
