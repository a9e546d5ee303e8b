import Mathlib.Algebra.BigOperators.Fin
import Mathlib.Algebra.Order.BigOperators.Group.Finset
import Mathlib.Tactic.Linarith
import Mathlib.Tactic.Ring

set_option autoImplicit false

/-!
# Smooth weighted round robin of `libs/yukino_rpc`

Each call of `Select` adds its weight to the current weight of every instance, picks the first
instance with the greatest one and takes the sum of the weights from it.

## Main definitions

* `WeightedRR`, `NewWeightedRR`, `WeightedRR.Select` — the balancer and its calls.

## Main results

* `WeightedRR.select_exact` — in each cycle every instance is picked as often as its weight says.

## Design

The loop of `Select` adds the weight of an index before it looks at it, and compares it with an
earlier index; here the additions come first. `none` stands for the empty `Instance`.
-/

namespace Yukino.Rpc

open List

structure WeightedRR (n : ℕ) where
  weights : Fin n → ℤ
  currentWeight : Fin n → ℤ
  totalWeight : ℤ

variable {n : ℕ} {α : Type}

def NewWeightedRR (weights : Fin n → ℤ) : WeightedRR n where
  weights i := if weights i < 0 then 0 else weights i
  currentWeight _ := 0
  totalWeight := ∑ i, if weights i < 0 then 0 else weights i

namespace WeightedRR

/-- The first index with the greatest number. -/
def best (current : Fin n → ℤ) : Option (Fin n) :=
  (finRange n).foldl (fun best i =>
    if best.all (current · < current i) then some i else best) none

def Select (list : List α) (w : WeightedRR n) : Option α × WeightedRR n :=
  if list.length = 0 ∨ list.length ≠ n ∨ w.totalWeight ≤ 0 then (none, w) else
  let current i := w.currentWeight i + w.weights i
  match best current with
  | none => (none, w)
  | some i => (list[i]?, { w with
      currentWeight := Function.update current i (current i - w.totalWeight) })

/-- So many calls of `Select`, with what they return. -/
def calls (list : List α) : ℕ → WeightedRR n → List (Option α) × WeightedRR n
  | 0, w => ([], w)
  | k + 1, w =>
    let r := w.Select list
    let rest := calls list k r.2
    (r.1 :: rest.1, rest.2)

lemma calls_add (list : List α) (m k : ℕ) (w : WeightedRR n) :
    (calls list (m + k) w).2 = (calls list k (calls list m w).2).2 := by
  induction m generalizing w with
  | zero => rw [Nat.zero_add, calls]
  | succ m ih =>
    rw [Nat.succ_add]
    exact ih _

/-! ## The current weights -/

/-- The greatest of numbers with a positive sum is positive. -/
lemma exists_best {current : Fin n → ℤ} (h : 0 < ∑ i, current i) :
    ∃ i, best current = some i ∧ 0 < current i := by
  obtain ⟨j, hj⟩ : ∃ j, 0 < current j := by
    by_contra hnone
    push Not at hnone
    exact absurd h (not_lt.2 (Finset.sum_nonpos fun i _ => hnone i))
  -- once a positive number is met, the best one is positive
  suffices hloop : ∀ (l : List (Fin n)) (b : Option (Fin n)),
      j ∈ l ∨ (∃ i, b = some i ∧ 0 < current i) → ∃ i, l.foldl (fun best i =>
        if best.all (current · < current i) then some i else best) b = some i ∧ 0 < current i from
    hloop _ none (.inl (mem_finRange j))
  intro l
  induction l with
  | nil => exact fun b hb => hb.resolve_left not_mem_nil
  | cons a l ih =>
    intro b hb
    refine ih _ ?_
    rw [mem_cons, or_assoc] at hb
    rcases hb with rfl | hl | ⟨i, rfl, hi⟩
    · right
      cases b with
      | none => exact ⟨j, rfl, hj⟩
      | some i =>
        dsimp only
        split_ifs with hlt
        · exact ⟨j, rfl, hj⟩
        · exact ⟨i, rfl, hj.trans_le (by simpa using hlt)⟩
    · exact .inl hl
    · right
      dsimp only
      split_ifs with hlt
      · exact ⟨a, rfl, hi.trans (by simpa using hlt)⟩
      · exact ⟨i, rfl, hi⟩

/-- The balancer after the picks. -/
structure After (ws : Fin n → ℕ) (w : WeightedRR n) (picks : List (Fin n)) : Prop where
  weights : ∀ i, w.weights i = ws i
  total : w.totalWeight = ∑ i, (ws i : ℤ)
  current : ∀ i, w.currentWeight i = picks.length * ws i - w.totalWeight * picks.count i
  above : ∀ i, -w.totalWeight < w.currentWeight i
  sum : ∑ i, w.currentWeight i = 0
  picked : ∀ i ∈ picks, ws i ≠ 0

variable {ws : Fin n → ℕ} {w : WeightedRR n} {picks : List (Fin n)} {list : List α}

lemma after_new (hpos : 0 < ∑ i, (ws i : ℤ)) : After ws (NewWeightedRR fun i => (ws i : ℤ)) [] := by
  have hweight : ∀ i, (if (ws i : ℤ) < 0 then 0 else (ws i : ℤ)) = ws i := fun i =>
    if_neg (by omega)
  have htotal : (NewWeightedRR fun i => (ws i : ℤ)).totalWeight = ∑ i, (ws i : ℤ) := by
    simp only [NewWeightedRR, hweight]
  refine ⟨hweight, htotal, fun i => ?_, fun i => ?_, Finset.sum_const_zero, nofun⟩
  · simp [NewWeightedRR]
  · exact neg_lt_zero.2 hpos

/-- **One call.** The sum of the weights after the additions is positive, so is the greatest of
them, and it stays above the negative sum when this is taken from it. An instance without a weight
was never picked, so its current weight is not positive. -/
lemma After.select (h : After ws w picks) (hpos : 0 < w.totalWeight) (hlen : list.length = n) :
    ∃ i, (w.Select list).1 = list[i]? ∧ After ws (w.Select list).2 (picks ++ [i]) := by
  have hsum : ∑ i, (w.currentWeight i + w.weights i) = w.totalWeight := by
    simp only [Finset.sum_add_distrib, h.sum, h.weights, h.total, zero_add]
  obtain ⟨i, hmax, hi⟩ := exists_best (hpos.trans_eq hsum.symm)
  have hupdate : ∀ j, Function.update (fun j => w.currentWeight j + w.weights j) i
      (w.currentWeight i + w.weights i - w.totalWeight) j =
        w.currentWeight j + w.weights j - if i = j then w.totalWeight else 0 := fun j => by
    rcases eq_or_ne i j with rfl | hne
    · simp
    · simp [hne, hne.symm]
  rw [Select, if_neg (by have := i.pos; omega)]
  simp only [hmax]
  refine ⟨i, rfl, h.weights, h.total, fun j => ?_, fun j => ?_, ?_, ?_⟩
  · have hcount : (picks ++ [i]).count j = picks.count j + if i = j then 1 else 0 := by
      simp [count_singleton]
    dsimp only
    rw [hupdate, hcount, h.current, h.weights, length_append, length_singleton]
    push_cast
    split_ifs <;> ring
  · have hj := h.above j
    have hw := h.weights j
    dsimp only
    rw [hupdate]
    split_ifs with hij
    · rw [← hij]
      omega
    · omega
  · simp [hupdate, hsum]
  · intro j hj
    rcases mem_append.1 hj with hj | hj
    · exact h.picked j hj
    · rw [mem_singleton.1 hj]
      intro hzero
      have hcurrent := h.current i
      have hcount : 0 ≤ w.totalWeight * picks.count i := by positivity
      simp only [h.weights, hzero] at hi hcurrent
      omega

lemma After.calls (h : After ws w picks) (hpos : 0 < w.totalWeight)
    (hlen : list.length = n) (k : ℕ) :
    ∃ more : List (Fin n), (calls list k w).1 = more.map (list[·]?) ∧ more.length = k ∧
      After ws (calls list k w).2 (picks ++ more) := by
  induction k generalizing w picks with
  | zero => exact ⟨[], rfl, rfl, by rwa [append_nil]⟩
  | succ k ih =>
    obtain ⟨i, hi, hafter⟩ := h.select hpos hlen
    obtain ⟨more, hmore, hk, hrest⟩ := ih hafter (by rw [hafter.total, ← h.total]; exact hpos)
    rw [append_assoc] at hrest
    exact ⟨i :: more, congrArg₂ _ hi hmore, congrArg (· + 1) hk, hrest⟩

/-- **A cycle.** After as many picks as the sum of the weights, the current weights are multiples
of the sum above its negative, and their sum is zero. -/
lemma After.cycle (h : After ws w picks) (hpos : 0 < w.totalWeight)
    (hlength : (picks.length : ℤ) = w.totalWeight) :
    w = NewWeightedRR (fun i => (ws i : ℤ)) ∧ ∀ i, picks.count i = ws i := by
  have hmul : ∀ i, w.currentWeight i = w.totalWeight * (ws i - picks.count i) := fun i => by
    rw [h.current, hlength]
    ring
  have hnonneg : ∀ i, 0 ≤ w.currentWeight i := fun i => by
    have habove := h.above i
    rw [hmul] at habove ⊢
    exact mul_nonneg hpos.le (by nlinarith)
  have hzero : ∀ i, w.currentWeight i = 0 := fun i =>
    (Finset.sum_eq_zero_iff_of_nonneg fun i _ => hnonneg i).1 h.sum i (Finset.mem_univ i)
  refine ⟨?_, fun i => ?_⟩
  · have hnew := after_new (h.total ▸ hpos)
    obtain ⟨v, c, t⟩ := w
    obtain rfl : c = fun _ => 0 := funext hzero
    rw [mk.injEq]
    exact ⟨funext fun i => (h.weights i).trans (hnew.weights i).symm, rfl,
      h.total.trans hnew.total.symm⟩
  · have := mul_eq_zero.1 ((hmul i).symm.trans (hzero i))
    omega

/-- **Weighted round robin is exact.** With weights of sum `W > 0` the current weights sum to zero
after any number of calls, and no instance of weight zero is returned. After each cycle of `W`
calls the balancer is as it was made, and the calls of a cycle return the instance at each index as
often as its weight says. -/
theorem select_exact (ws : Fin n → ℕ) (hpos : 0 < ∑ i, ws i) (list : List α)
    (hlen : list.length = n) :
    (∀ k, ∑ i, (WeightedRR.calls list k (NewWeightedRR (ws ·))).2.currentWeight i = 0 ∧
      ∃ picks : List (Fin n), (WeightedRR.calls list k (NewWeightedRR (ws ·))).1 =
        picks.map (list[·]?) ∧ ∀ i ∈ picks, ws i ≠ 0) ∧
    ∀ b, (WeightedRR.calls list (b * ∑ i, ws i) (NewWeightedRR (ws ·))).2 =
        NewWeightedRR (ws ·) ∧ ∃ picks : List (Fin n),
      (WeightedRR.calls list (∑ i, ws i)
        (WeightedRR.calls list (b * ∑ i, ws i) (NewWeightedRR (ws ·))).2).1 =
          picks.map (list[·]?) ∧
      ∀ i, picks.count i = ws i := by
  let w := NewWeightedRR fun i => (ws i : ℤ)
  have hpos' : 0 < ∑ i, (ws i : ℤ) := by exact_mod_cast hpos
  have hnew : After ws w [] := after_new hpos'
  have htotal : 0 < w.totalWeight := hnew.total ▸ hpos'
  obtain ⟨picks, hpicks, hk, hafter⟩ := hnew.calls htotal hlen (∑ i, ws i)
  have hsame := hafter.total.trans hnew.total.symm
  obtain ⟨hcycle, hcount⟩ := hafter.cycle (hsame ▸ htotal) (by
    rw [hafter.total, nil_append, hk]
    push_cast
    rfl)
  refine ⟨fun k => ?_, fun b => ?_⟩
  · obtain ⟨picks, hpicks, -, hafter⟩ := hnew.calls htotal hlen k
    exact ⟨hafter.sum, picks, hpicks, hafter.picked⟩
  · have hback : (WeightedRR.calls list (b * ∑ i, ws i) w).2 = w := by
      induction b with
      | zero => rw [Nat.zero_mul, WeightedRR.calls]
      | succ b ih => rw [Nat.succ_mul, calls_add, ih, hcycle]
    rw [hback]
    exact ⟨rfl, picks, hpicks, hcount⟩

/-- Four calls in a cycle of seven. -/
theorem select_exact_midway :
    ∑ i, (WeightedRR.calls ["a", "b", "c"] 4
      (NewWeightedRR fun i : Fin 3 => ((![5, 1, 1] i : ℕ) : ℤ))).2.currentWeight i = 0 :=
  ((select_exact ![5, 1, 1] (by decide) ["a", "b", "c"] rfl).1 4).1

end WeightedRR

end Yukino.Rpc
