import Mathlib.Data.List.Sort

set_option autoImplicit false

/-!
# Binary search and sorted lists

`sort.Search` of Go, and the facts about sorted lists that go with it.

## Main definitions

* `Search.search` — the least index at which a monotone predicate holds, by bisection.

## Main results

* `Search.search_spec` — before the result the predicate fails, and from it on it holds.
* `Search.eq_of_mem_iff` — a strictly increasing list is determined by its elements.
-/

namespace Search

open List

/-- The loop `for i < j` of `sort.Search`. -/
def loop (f : ℕ → Bool) (i j : ℕ) : ℕ :=
  if i < j then
    let h := (i + j) / 2
    if f h then loop f i h else loop f (h + 1) j
  else i
termination_by j - i

/-- `sort.Search(n, f)`. -/
def search (n : ℕ) (f : ℕ → Bool) : ℕ := loop f 0 n

/-- `f` holds from some index on, among the indices below `n`. -/
def Monotone (f : ℕ → Bool) (n : ℕ) : Prop := ∀ i j, i ≤ j → j < n → f i = true → f j = true

/-- **Proof sketch.** By induction along the loop: `f` fails below `i` and holds from `j` on. -/
lemma loop_spec {f : ℕ → Bool} {n : ℕ} (hf : Monotone f n) (i j : ℕ) (hij : i ≤ j) (hj : j ≤ n)
    (hlow : ∀ k < i, f k = false) (hhigh : ∀ k, j ≤ k → k < n → f k = true) :
    loop f i j ≤ n ∧ (∀ k < loop f i j, f k = false) ∧
      ∀ k, loop f i j ≤ k → k < n → f k = true := by
  fun_induction loop f i j with
  | case1 i j hlt h hfh ih =>
    refine ih (by omega) (by omega) hlow ?_
    intro k hk hkn
    exact hf h k hk hkn hfh
  | case2 i j hlt h hfh ih =>
    refine ih (by omega) hj ?_ hhigh
    intro k hk
    by_contra hne
    exact hfh (hf k h (by omega) (by omega) (by simpa using hne))
  | case3 i j hlt =>
    obtain rfl : i = j := by omega
    exact ⟨hj, hlow, hhigh⟩

/-- The result splits the indices below `n` into those where `f` fails and those where it
holds. -/
lemma search_spec {f : ℕ → Bool} {n : ℕ} (hf : Monotone f n) :
    search n f ≤ n ∧ (∀ k < search n f, f k = false) ∧
      ∀ k, search n f ≤ k → k < n → f k = true := by
  refine loop_spec hf 0 n (by omega) le_rfl ?_ ?_
  · omega
  · omega

/-- In a sorted list the search for a value that occurs finds an index of it. -/
lemma search_getElem_of_mem {l : List ℕ} (hl : l.Pairwise (· ≤ ·)) {x : ℕ} (hx : x ∈ l) :
    l[search l.length fun i => decide (x ≤ l[i]?.getD 0)]? = some x := by
  have hmono : Monotone (fun i => decide (x ≤ l[i]?.getD 0)) l.length := by
    intro i j hij hj hi
    rw [decide_eq_true_eq] at hi ⊢
    rw [getElem?_eq_getElem (by omega)] at hi ⊢
    rcases eq_or_lt_of_le hij with rfl | hlt
    · exact hi
    · exact hi.trans (pairwise_iff_getElem.1 hl i j (by omega) hj hlt)
  obtain ⟨-, hbelow, habove⟩ := search_spec hmono
  obtain ⟨i, hi, rfl⟩ := getElem_of_mem hx
  set idx := search l.length fun k => decide (l[i] ≤ l[k]?.getD 0) with hidx
  -- the index is at most `i`, so its element is at most `x`, and it is at least `x`
  have hle : idx ≤ i := by
    by_contra hlt
    have := hbelow i (by omega)
    rw [decide_eq_false_iff_not, getElem?_eq_getElem hi] at this
    exact this le_rfl
  have hge := habove idx le_rfl (by omega)
  rw [decide_eq_true_eq, getElem?_eq_getElem (by omega)] at hge
  rw [getElem?_eq_getElem (by omega), Option.some.injEq]
  refine le_antisymm ?_ hge
  rcases eq_or_lt_of_le hle with heq | hlt
  · exact le_of_eq (by congr 1)
  · exact pairwise_iff_getElem.1 hl idx i (by omega) hi hlt

/-- Two strictly increasing lists with the same elements are equal. -/
lemma eq_of_mem_iff {l₁ l₂ : List ℕ} (h₁ : l₁.Pairwise (· < ·)) (h₂ : l₂.Pairwise (· < ·))
    (h : ∀ x, x ∈ l₁ ↔ x ∈ l₂) : l₁ = l₂ := by
  have hperm : l₁.Perm l₂ :=
    (perm_ext_iff_of_nodup (h₁.imp ne_of_lt) (h₂.imp ne_of_lt)).2 h
  exact hperm.eq_of_pairwise (fun a b _ _ hab hba => absurd hab (lt_asymm hba)) h₁ h₂

end Search
