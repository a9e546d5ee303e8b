import Mathlib.Data.Set.Basic

set_option autoImplicit false

/-!
# Points on a circle

Points of a circle of circumference `m` are the integers `0, …, m - 1`. `clockwise m a b` is the
length of the way from `a` up to `b`, past the end of the circle where `b` lies behind `a`, and
`First m S d c` says that `c` is the first point of `S` on the way from `d`. A place on a hash
ring, a slot of a circular buffer and the next timer of a wheel are all found this way.

## Main definitions

* `RingWalk.OnCircle` — being a point of the circle.
* `RingWalk.clockwise` — the way from one point to another.
* `RingWalk.next`, `RingWalk.prev` — the neighbours of a point.
* `RingWalk.First` — the first point of a set on the way from a given point.
* `RingWalk.Behind` — the last point of a set before one of its points.

## Main results

* `RingWalk.First.unique` — there is at most one first point.
* `RingWalk.first_iff_of_behind` — the points whose way first meets `v` are those after the point
  behind `v`.
* `RingWalk.First.past` — a set that misses `v` is met from the point after `v` as it is from any
  point whose way first meets `v`.
-/

namespace RingWalk

variable {m : ℤ} {S T : Set ℤ} {a b c d l v x : ℤ}

/-- A point of the circle of circumference `m`. -/
def OnCircle (m a : ℤ) : Prop :=
  0 ≤ a ∧ a < m

/-- The length of the way from `a` up to `b`. -/
def clockwise (m a b : ℤ) : ℤ :=
  if a ≤ b then b - a else b - a + m

/-- The point after `a`. -/
def next (m a : ℤ) : ℤ :=
  if a = m - 1 then 0 else a + 1

/-- The point before `a`. -/
def prev (m a : ℤ) : ℤ :=
  if a = 0 then m - 1 else a - 1

lemma OnCircle.next (h : OnCircle m a) : OnCircle m (next m a) := by
  unfold OnCircle RingWalk.next at *
  split_ifs <;> omega

/-- `c` is the first point of `S` on the way from `d`. -/
def First (m : ℤ) (S : Set ℤ) (d c : ℤ) : Prop :=
  c ∈ S ∧ ∀ s ∈ S, clockwise m d c ≤ clockwise m d s

/-- `l` is the last point of `S` before `v`, other than `v` unless `v` is alone. -/
def Behind (m : ℤ) (S : Set ℤ) (v l : ℤ) : Prop :=
  l ∈ S ∧ (l = v → ∀ s ∈ S, s = v) ∧ ∀ s ∈ S, s ≠ v → clockwise m l v ≤ clockwise m s v

/-- Points of the circle at the same distance are one point. -/
lemma clockwise_inj (ha : OnCircle m a) (hb : OnCircle m b)
    (h : clockwise m d a = clockwise m d b) : a = b := by
  unfold OnCircle clockwise at *
  split_ifs at h <;> omega

lemma First.mem (h : First m S d c) : c ∈ S :=
  h.1

lemma First.unique (hS : ∀ s ∈ S, OnCircle m s) (ha : First m S d a) (hb : First m S d b) : a = b :=
  clockwise_inj (hS a ha.1) (hS b hb.1) (le_antisymm (ha.2 b hb.1) (hb.2 a ha.1))

/-- The first point of a set is the first point of each subset it lies in. -/
lemma First.subset (h : First m S d c) (hTS : T ⊆ S) (hc : c ∈ T) : First m T d c :=
  ⟨hc, fun s hs => h.2 s (hTS hs)⟩

/-- The least point from `d` on is the first one. -/
lemma first_of_least_above (hS : ∀ s ∈ S, OnCircle m s) (hc : c ∈ S) (hdc : d ≤ c)
    (hle : ∀ s ∈ S, d ≤ s → c ≤ s) : First m S d c := by
  refine ⟨hc, fun s hs => ?_⟩
  have hcm := hS c hc
  have hsm := hS s hs
  have hcs := hle s hs
  unfold OnCircle clockwise at *
  split_ifs <;> omega

/-- If no point lies from `d` on, the least point is the first one. -/
lemma first_of_least (hc : c ∈ S) (hle : ∀ s ∈ S, c ≤ s) (hlt : ∀ s ∈ S, s < d) :
    First m S d c := by
  refine ⟨hc, fun s hs => ?_⟩
  have hsd := hlt s hs
  have hcs := hle s hs
  unfold clockwise
  split_ifs <;> omega

/-- The greatest point below `v` lies behind it. -/
lemma behind_of_greatest_below (hS : ∀ s ∈ S, OnCircle m s) (hl : l ∈ S) (hlv : l < v)
    (hge : ∀ s ∈ S, s < v → s ≤ l) : Behind m S v l := by
  refine ⟨hl, fun h => absurd h hlv.ne, fun s hs hne => ?_⟩
  have hsm := hS s hs
  have hlm := hS l hl
  have hsl := hge s hs
  unfold OnCircle clockwise at *
  split_ifs <;> omega

/-- If no point lies below `v`, the greatest point lies behind it. -/
lemma behind_of_greatest (hl : l ∈ S) (hge : ∀ s ∈ S, s ≤ l)
    (hle : ∀ s ∈ S, v ≤ s) : Behind m S v l := by
  refine ⟨hl, fun h s hs => ?_, fun s hs hne => ?_⟩
  · have hsl := hge s hs
    have hvs := hle s hs
    omega
  · have hsl := hge s hs
    have hvs := hle s hs
    unfold clockwise
    split_ifs <;> omega

variable (hS : ∀ s ∈ S, OnCircle m s)
include hS

/-- The points whose way first meets `v` are those after the point behind `v`. -/
lemma first_iff_of_behind (hd : OnCircle m d) (hv : v ∈ S)
    (hl : Behind m S v l) (hne : l ≠ v) :
    First m S d v ↔ clockwise m d v < clockwise m l v := by
  have hvm := hS v hv
  constructor
  · rintro ⟨-, hle⟩
    have hlm := hS l hl.1
    have hdl := hle l hl.1
    unfold OnCircle clockwise at *
    split_ifs at * <;> omega
  · intro hlt
    refine ⟨hv, fun s hs => ?_⟩
    have hsm := hS s hs
    rcases eq_or_ne s v with rfl | hsv
    · exact le_rfl
    · have hls := hl.2.2 s hs hsv
      unfold OnCircle clockwise at *
      split_ifs at * <;> omega

/-- **Walking past a point.** If the way from `d` first meets `v` in `S`, a subset that misses
`v` is first met from `d` where it is first met from the point after `v`. -/
lemma First.past (hd : OnCircle m d) (hdv : First m S d v)
    (hTS : T ⊆ S) (hvT : v ∉ T) (h : First m T (next m v) x) : First m T d x := by
  refine ⟨h.1, fun s hs => ?_⟩
  have hsv : s ≠ v := fun e => hvT (e ▸ hs)
  have hvm := hS v hdv.1
  have hsm := hS s (hTS hs)
  have hds := hdv.2 s (hTS hs)
  have hxs := h.2 s hs
  unfold OnCircle clockwise RingWalk.next at *
  split_ifs at * <;> omega

/-- From the point after `v` every other point is met before `v`. -/
lemma First.ne_of_mem (hv : OnCircle m v)
    (h : First m S (next m v) x) (ha : a ∈ S) (hne : a ≠ v) : x ≠ v := by
  have ham := hS a ha
  have hle := h.2 a ha
  unfold OnCircle clockwise RingWalk.next at *
  split_ifs at * <;> omega

/-- A point behind `v` across the end of the circle has no point below `v` after it. -/
lemma Behind.lt_of_lt (h : Behind m S v l) (hx : x ∈ S) (hxv : x < v) : l < v := by
  have hlm := hS l h.1
  have hxm := hS x hx
  have hle := h.2.2 x hx hxv.ne
  have hlv := h.2.1
  by_contra hnot
  rcases eq_or_ne l v with heq | hne
  · exact hxv.ne (hlv heq x hx)
  · unfold OnCircle clockwise at *
    split_ifs at hle <;> omega

end RingWalk
