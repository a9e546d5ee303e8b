import Mathlib.Algebra.Order.Group.Multiset

set_option autoImplicit false

/-!
# Keyed accounts

What comes into and goes out of an account that holds a bag of values for every key.

## Main definitions

* `Ledger.valuesOf` — the values of a key in a list of pairs.
* `Ledger.Flow` — what was held and what came in is what is held and what went out.
* `Ledger.hold`, `Ledger.pairsOf` — the values and the pairs of a map, which has one value for a key
  at most.

## Main results

* `Ledger.Flow.trans`, `Ledger.Flow.add` — one change after another, and two accounts side by side.
* `Ledger.Flow.cancel` — what goes from one account to another stays.
* `Ledger.Flow.erase`, `Ledger.Flow.insert` — the changes of a map.
-/

namespace Ledger

variable {κ ν : Type} [DecidableEq κ]

/-- The values of a key. -/
def valuesOf (k : κ) (l : List (κ × ν)) : Multiset ν := ↑((l.filter (·.1 = k)).map Prod.snd)

@[simp] lemma valuesOf_nil (k : κ) : valuesOf k ([] : List (κ × ν)) = 0 := rfl

@[simp] lemma valuesOf_append (k : κ) (l l' : List (κ × ν)) :
    valuesOf k (l ++ l') = valuesOf k l + valuesOf k l' := by
  simp [valuesOf]

/-- For every key, what was held and what came in is what is held and what went out. -/
def Flow (h h' : κ → Multiset ν) (came went : List (κ × ν)) : Prop :=
  ∀ k, h k + valuesOf k came = h' k + valuesOf k went

/-- The values of a map. -/
def hold (f : κ → Option ν) (k : κ) : Multiset ν := ↑(f k).toList

/-- The pair of a key in a map. -/
def pairsOf (f : κ → Option ν) (key : κ) : List (κ × ν) := (f key).toList.map (key, ·)

lemma valuesOf_pairsOf (f : κ → Option ν) (k key : κ) :
    valuesOf k (pairsOf f key) = if k = key then hold f key else 0 := by
  unfold valuesOf pairsOf hold
  by_cases hk : k = key
  · cases hf : f key <;> simp [hk]
  · cases hf : f key <;> simp [hk, Ne.symm hk]

namespace Flow

variable {h h' h'' g g' : κ → Multiset ν} {came went came' went' : List (κ × ν)}

lemma refl (h : κ → Multiset ν) : Flow h h [] [] := fun _ => rfl

lemma trans (hf : Flow h h' came went) (hf' : Flow h' h'' came' went') :
    Flow h h'' (came ++ came') (went ++ went') := by
  intro k
  calc h k + valuesOf k (came ++ came')
      = h k + valuesOf k came + valuesOf k came' := by rw [valuesOf_append, add_assoc]
    _ = h' k + valuesOf k came' + valuesOf k went := by rw [hf k, add_right_comm]
    _ = h'' k + valuesOf k (went ++ went') := by
      rw [hf' k, valuesOf_append, add_assoc, add_comm (valuesOf k went')]

lemma add (hf : Flow h h' came went) (hg : Flow g g' came' went') :
    Flow (h + g) (h' + g') (came ++ came') (went ++ went') := by
  intro k
  rw [Pi.add_apply, Pi.add_apply, valuesOf_append, valuesOf_append, add_add_add_comm, hf k, hg k,
    add_add_add_comm]

lemma cancel (l : List (κ × ν)) (hf : Flow h h' (l ++ came) (l ++ went)) : Flow h h' came went := by
  intro k
  have hk := hf k
  rw [valuesOf_append, valuesOf_append, add_left_comm, add_left_comm (h' k)] at hk
  exact add_left_cancel hk

lemma perm (hf : Flow h h' came went) (hperm : went.Perm went') : Flow h h' came went' := by
  intro k
  rw [hf k]
  exact congrArg (h' k + ·) (Multiset.coe_eq_coe.2 ((hperm.filter _).map _))

variable {f f' : κ → Option ν} {key : κ}

lemma insert {v : ν} (hf : ∀ k, f' k = if k = key then some v else f k) :
    Flow (hold f) (hold f') [(key, v)] (pairsOf f key) := by
  intro k
  rw [valuesOf_pairsOf, hold, hold, hf]
  by_cases hk : k = key
  · simp [valuesOf, hk, hold, add_comm]
  · simp [valuesOf, hk, Ne.symm hk]

lemma erase (hf : ∀ k, f' k = if k = key then none else f k) :
    Flow (hold f) (hold f') [] (pairsOf f key) := by
  intro k
  rw [valuesOf_pairsOf, hold, hold, hf]
  by_cases hk : k = key <;> simp [hk, hold]

end Flow

end Ledger
