import Mathlib.Data.List.Basic

set_option autoImplicit false

/-!
# The newest answer of several sources

A key may have an answer in several places that are asked one after another: the newest memtable,
older ones, tables. For one key, a source is its answer, and the sources are listed from the
oldest to the newest.

## Main definitions

* `Layers.newest` — the answer of the newest source that has one.
* `Layers.AtMostOne` — no two sources have an answer.
* `Layers.NoneOver` — no source outside of a set has an answer below one of the set that has.
* `Layers.found` — the answer of a source that may fail.

## Main results

* `Layers.newest_append` — newer sources are asked first.
* `Layers.AtMostOne.newest_eq_some_iff` — if at most one source has an answer, the order does not
  matter.
* `Layers.newest_merge` — sources that are merged into a level answer in its place.
* `Layers.newest_filter` — a set of sources may be asked after all others, if no other source has
  an answer below one of the set that has.
* `Layers.findSome?_range` — levels that are asked one after another, cut at two of them.
-/

namespace Layers

open List Bool Option

variable {σ ν : Type*}

/-- The answer of the newest source, the last one of the list. -/
def newest : List (Option ν) → Option ν
  | [] => none
  | a :: l => (newest l).or a

@[simp] lemma newest_nil : newest ([] : List (Option ν)) = none := rfl

lemma newest_cons (a : Option ν) (l : List (Option ν)) : newest (a :: l) = (newest l).or a := rfl

lemma newest_append (l l' : List (Option ν)) : newest (l ++ l') = (newest l').or (newest l) := by
  induction l with
  | nil => simp
  | cons a l ih => rw [cons_append, newest_cons, newest_cons, ih, Option.or_assoc]

lemma newest_eq_none_iff {l : List (Option ν)} : newest l = none ↔ ∀ a ∈ l, a = none := by
  induction l with
  | nil => simp
  | cons a l ih =>
    rw [newest_cons, or_eq_none_iff, ih, forall_mem_cons]
    exact and_comm

lemma mem_of_newest {l : List (Option ν)} {v : ν} (h : newest l = some v) : some v ∈ l := by
  induction l with
  | nil => cases h
  | cons a l ih =>
    rw [newest_cons, or_eq_some_iff] at h
    rcases h with h | ⟨-, rfl⟩
    · exact mem_cons_of_mem _ (ih h)
    · exact mem_cons_self

/-- The first answer from the newest source on. -/
lemma findSome?_reverse (f : σ → Option ν) (l : List σ) :
    l.reverse.findSome? f = newest (l.map f) := by
  induction l with
  | nil => rfl
  | cons a l ih =>
    rw [reverse_cons, findSome?_append, ih, map_cons, newest_cons, findSome?_singleton]

/-- No two sources have an answer. -/
def AtMostOne (l : List (Option ν)) : Prop :=
  l.Pairwise fun a b => a = none ∨ b = none

lemma AtMostOne.newest_eq_some_iff {l : List (Option ν)} (h : AtMostOne l) {v : ν} :
    newest l = some v ↔ some v ∈ l := by
  refine ⟨mem_of_newest, fun hv => ?_⟩
  induction l with
  | nil => cases hv
  | cons a l ih =>
    obtain ⟨ha, hl⟩ := pairwise_cons.1 h
    rw [newest_cons]
    rcases mem_cons.1 hv with rfl | hv
    · -- the others have no answer
      have hnone : newest l = none :=
        newest_eq_none_iff.2 fun b hb => (ha b hb).resolve_left (by simp)
      rw [hnone, none_or]
    · rw [ih hl hv, some_or]

/-- If at most one source has an answer, any list of the same sources has the same. -/
lemma AtMostOne.newest_congr {l l' : List (Option ν)} (h : AtMostOne l) (h' : AtMostOne l')
    (hsome : ∀ v, some v ∈ l ↔ some v ∈ l') : newest l = newest l' := by
  ext v
  rw [h.newest_eq_some_iff, h'.newest_eq_some_iff, hsome]

/-- **Merging into a level.** Of the sources before, those not kept are merged with a newer answer
`a`; what the merged sources have is `m`. -/
lemma newest_merge {before kept picked after : List (Option ν)} {a m : Option ν}
    (hbefore : AtMostOne before) (hpicked : AtMostOne picked) (hafter : AtMostOne after)
    (hsplit : ∀ v, some v ∈ before ↔ some v ∈ kept ∨ some v ∈ picked)
    (hmerged : ∀ v, some v ∈ after ↔ some v ∈ kept ∨ m = some v)
    (hm : m = a.or (newest picked)) : newest after = a.or (newest before) := by
  cases a with
  | some u =>
    exact hafter.newest_eq_some_iff.2 ((hmerged u).2 (.inr hm))
  | none =>
    rw [none_or] at hm ⊢
    refine hafter.newest_congr hbefore fun v => ?_
    rw [hmerged, hsplit, hm, hpicked.newest_eq_some_iff]

/-- Below a source of the set with an answer, no source outside of it has one. -/
def NoneOver (p : σ → Bool) (f : σ → Option ν) (l : List σ) : Prop :=
  l.Pairwise fun a b => p a = false → p b = true → f a = none ∨ f b = none

/-- **Asking some sources last.** A set of sources may be asked after all others, and before
what comes after them all, if no other source has an answer below one of the set that has. -/
lemma newest_filter {p : σ → Bool} {f : σ → Option ν} {l : List σ} (h : NoneOver p f l)
    (x : Option ν) :
    (newest (l.map f)).or x =
      (newest ((l.filter fun a => !p a).map f)).or ((newest ((l.filter p).map f)).or x) := by
  induction l generalizing x with
  | nil => simp
  | cons a l ih =>
    obtain ⟨ha, hl⟩ := pairwise_cons.1 h
    rw [map_cons, newest_cons, ih hl]
    by_cases hp : p a = true
    · simp only [filter_cons, hp, Bool.not_true, Bool.false_eq_true, if_false, if_true,
        map_cons, newest_cons, Option.or_assoc]
    · rw [Bool.not_eq_true] at hp
      simp only [filter_cons, hp, Bool.not_false, if_true, map_cons, newest_cons, Option.or_assoc]
      -- one of the two has no answer, so they may be asked in either order
      have hor : f a = none ∨ newest ((l.filter p).map f) = none := by
        by_cases hfa : f a = none
        · exact .inl hfa
        · refine .inr (newest_eq_none_iff.2 fun b hb => ?_)
          obtain ⟨c, hc, rfl⟩ := mem_map.1 hb
          obtain ⟨hcl, hpc⟩ := mem_filter.1 hc
          exact (ha c hcl hp hpc).resolve_left hfa
      rcases hor with hnone | hnone <;> simp [hnone]

lemma findSome?_congr {A B : σ → Option ν} {l : List σ} (h : ∀ a ∈ l, A a = B a) :
    l.findSome? A = l.findSome? B := by
  rw [← head?_filterMap, ← head?_filterMap, filterMap_congr h]

/-- **Levels that are asked one after another**, cut at two neighbouring ones. -/
lemma findSome?_range (A : ℕ → Option ν) {c n : ℕ} (h : c + 1 < n) :
    (range n).findSome? A = ((range c).findSome? A).or ((A c).or ((A (c + 1)).or
      ((range' (c + 2) (n - (c + 2))).findSome? A))) := by
  have hcons : ∀ l ls, (l :: ls).findSome? A = (A l).or (ls.findSome? A) := by
    intro l ls
    rw [findSome?_cons]
    cases A l <;> rfl
  obtain ⟨k, rfl⟩ := Nat.exists_eq_add_of_lt h
  rw [show c + 1 + k + 1 - (c + 2) = k by omega, show c + 1 + k + 1 = c + (k + 2) by omega,
    range_eq_range', range_eq_range', ← range'_append_1, Nat.zero_add, range'_succ, range'_succ,
    findSome?_append, hcons, hcons]

/-- Two neighbouring levels may change, and the others answer as before. -/
lemma findSome?_range_congr {A B : ℕ → Option ν} {c : ℕ} (h : ∀ l, l ≠ c → l ≠ c + 1 → A l = B l)
    (n : ℕ) : (range c).findSome? A = (range c).findSome? B ∧
      (range' (c + 2) n).findSome? A = (range' (c + 2) n).findSome? B := by
  refine ⟨findSome?_congr fun l hl => ?_, findSome?_congr fun l hl => ?_⟩
  · have := mem_range.1 hl
    exact h l (by omega) (by omega)
  · have := (mem_range'_1.1 hl).1
    exact h l (by omega) (by omega)

/-! ## Sources that may fail -/

/-- What a source finds that may fail: nothing, an answer, or a failure. -/
def found {ε : Type*} : Except ε (Option ν) → Option (Except ε ν)
  | .ok none => none
  | .ok (some v) => some (.ok v)
  | .error e => some (.error e)

lemma found_ok {ε : Type*} (a : Option ν) :
    found (.ok a : Except ε (Option ν)) = a.map .ok := by
  cases a <;> rfl

lemma found_inj {ε : Type*} {a b : Except ε (Option ν)} : found a = found b ↔ a = b := by
  refine ⟨fun h => ?_, congrArg found⟩
  rcases a with e | (_ | v) <;> rcases b with e' | (_ | w) <;> simp_all [found]

lemma newest_map {μ : Type*} (g : ν → μ) (l : List (Option ν)) :
    newest (l.map (Option.map g)) = (newest l).map g := by
  induction l with
  | nil => rfl
  | cons a l ih => rw [map_cons, newest_cons, newest_cons, ih, map_or]

/-- The values of a key in pairs that are written one list after another. -/
lemma lookup_reverse_flatten {κ : Type*} [BEq κ] (ls : List (List (κ × ν))) (k : κ) :
    ls.flatten.reverse.lookup k = newest (ls.map fun l => l.reverse.lookup k) := by
  induction ls with
  | nil => rfl
  | cons l ls ih =>
    rw [flatten_cons, reverse_append, lookup_append, ih, map_cons, newest_cons]

end Layers
