import Mathlib.Data.Int.Notation
import Mathlib.Data.List.Basic

set_option autoImplicit false

/-!
# The chain of middlewares

`compose` runs the middlewares of a request and then its handler. Each of them is given a function
`next` that enters the one behind it, and decides itself whether and when to call it.

## Main definitions

* `dispatch`, `next` — the entry of a stage, and the function that a stage is given.
* `compose` — a run of the chain.

## Main results

* `Onion.next` — what one call of a `next` keeps.
* `stages_once_in_order` — stages are entered in order, once each, through the `next` of the stage
  before; a middleware that calls its `next` again panics.
* `handler_calls_twice` — the handler may call its `next` as often as it likes.

## Design

A stage is its place in the list of middlewares, and the handler is the stage behind them. What the
stages do is the list of their calls of `next`, in any order: the closures outlive the call of the
stage, so a call may come after the stages behind, or the stage itself, have returned or panicked.
-/

namespace Yukino.Http

open List

namespace Chain

/-- What a call of `next` does. -/
inductive Effect
  | entered | nothing | panicked
  deriving DecidableEq

structure Run where
  /-- The variable that the closures share. -/
  index : ℤ := -1
  /-- The stages that were entered, in order. -/
  entered : List ℕ := []
  /-- The calls of `next`, each with its stage. -/
  calls : List (ℕ × Effect) := []

/-- The function `dispatch` of a chain with `n` middlewares, up to the entry of the stage. -/
def dispatch (n : ℕ) (final : Bool) (i : ℕ) (s : Run) : Effect × Run :=
  if (i : ℤ) ≤ s.index then (.panicked, s)
  else
    let s := { s with index := i }
    if n ≤ i then
      if final then (.entered, { s with entered := s.entered ++ [i] }) else (.nothing, s)
    else (.entered, { s with entered := s.entered ++ [i] })

/-- Stage `i` calls its `next`, which it has once it is entered. That of the handler is empty. -/
def next (n : ℕ) (final : Bool) (s : Run) (i : ℕ) : Run :=
  if i ∈ s.entered then
    let r := if i < n then dispatch n final (i + 1) s else (.nothing, s)
    { r.2 with calls := r.2.calls ++ [(i, r.1)] }
  else s

/-- A run of the chain, with the calls of `next` that its stages make. -/
def compose (n : ℕ) (final : Bool) (calls : List ℕ) : Run :=
  calls.foldl (next n final) (dispatch n final 0 {}).2

/-- The stage that a call enters. -/
def enters : ℕ × Effect → Option ℕ
  | (i, .entered) => some (i + 1)
  | _ => none

/-- The chain once `index` is `k`. -/
structure Onion (n : ℕ) (final : Bool) (k : ℕ) (s : Run) : Prop where
  index : s.index = k
  le : k ≤ n
  entered : s.entered = range (min (k + 1) (n + final.toNat))
  through : s.entered = range (min 1 (n + final.toNat)) ++ s.calls.filterMap enters
  again : s.calls.Pairwise fun a b => a.1 = b.1 → a.1 < n → b.2 = .panicked
  called : ∀ a ∈ s.calls, a.1 < n → a.1 < k
  handler : ∀ a ∈ s.calls, a.1 = n → a.2 = .nothing

variable {n i k : ℕ} {final : Bool} {s : Run}

/-- What `dispatch` can do. There are `n + final.toNat` stages. -/
lemma dispatch_cases (final : Bool) (s : Run) (hi : i ≤ n) :
    (i : ℤ) ≤ s.index ∧ dispatch n final i s = (.panicked, s) ∨
    s.index < i ∧ i < n + final.toNat ∧
      dispatch n final i s = (.entered, ⟨i, s.entered ++ [i], s.calls⟩) ∨
    s.index < i ∧ n + final.toNat = i ∧
      dispatch n final i s = (.nothing, ⟨i, s.entered, s.calls⟩) := by
  unfold dispatch
  split_ifs with hle hend hfinal
  · exact .inl ⟨hle, rfl⟩
  · have htrue : final.toNat = 1 := by simp [hfinal]
    exact .inr (.inl ⟨by omega, by omega, rfl⟩)
  · have hfalse : final.toNat = 0 := by simp [hfinal]
    exact .inr (.inr ⟨by omega, by omega, rfl⟩)
  · exact .inr (.inl ⟨by omega, by omega, rfl⟩)

lemma onion_dispatch (n : ℕ) (final : Bool) : Onion n final 0 (dispatch n final 0 {}).2 := by
  rcases dispatch_cases final {} n.zero_le with h | ⟨-, hpos, h⟩ | ⟨-, hzero, h⟩
  · exact absurd h.1 (by decide)
  · have hmin : min 1 (n + final.toNat) = 1 := by omega
    rw [h]
    constructor <;> simp [hmin]
  · rw [h]
    constructor <;> simp [hzero]

/-- A call of stage `i` that does `e` and leaves `index` at `k'`. -/
lemma Onion.call (h : Onion n final k s) {k' : ℕ} {e : Effect} {entered : List ℕ} (hk : k ≤ k')
    (hle : k' ≤ n) (hsplit : entered = s.entered ++ (enters (i, e)).toList)
    (hentered : entered = range (min (k' + 1) (n + final.toNat)))
    (hagain : i < k → i < n → e = .panicked) (hcalled : i < n → i < k')
    (hhandler : i = n → e = .nothing) :
    Onion n final k' ⟨k', entered, s.calls ++ [(i, e)]⟩ := by
  refine ⟨rfl, hle, hentered, ?_, ?_, ?_, ?_⟩
  · rw [filterMap_append, ← append_assoc, ← h.through, hsplit]
    cases e <;> rfl
  · refine pairwise_append.2 ⟨h.again, pairwise_singleton _ _, ?_⟩
    intro a ha b hb heq hlt
    have hlt' := h.called a ha hlt
    cases mem_singleton.1 hb
    exact hagain (by omega) (by omega)
  · intro a ha hlt
    rcases mem_append.1 ha with ha | ha
    · have := h.called a ha hlt
      omega
    · cases mem_singleton.1 ha
      exact hcalled hlt
  · intro a ha heq
    rcases mem_append.1 ha with ha | ha
    · exact h.handler a ha heq
    · cases mem_singleton.1 ha
      exact hhandler heq

/-- **One call** of a `next`. -/
lemma Onion.next (h : Onion n final k s) (i : ℕ) : ∃ k', Onion n final k' (next n final s i) := by
  obtain ⟨index, entered, calls⟩ := s
  obtain rfl : index = k := h.index
  have hle := h.le
  have hrange := h.entered
  unfold Chain.next
  split_ifs with hi hlt
  · rw [hrange, mem_range] at hi
    rcases dispatch_cases final ⟨k, entered, calls⟩ hlt with
      ⟨hpassed, heq⟩ | ⟨hnew, hstage, heq⟩ | ⟨hnew, hnone, heq⟩
    · rw [heq]
      dsimp only at hpassed
      exact ⟨k, h.call k.le_refl hle (append_nil _).symm hrange (fun _ _ => rfl) (by omega)
        (by omega)⟩
    · rw [heq]
      dsimp only at hnew
      obtain rfl : i = k := by omega
      have hmin : min (i + 1) (n + final.toNat) = i + 1 := by omega
      have hmin' : min (i + 1 + 1) (n + final.toNat) = i + 1 + 1 := by omega
      refine ⟨i + 1, h.call i.le_succ hlt rfl ?_ (by omega) (by omega) (by omega)⟩
      rw [hrange, hmin, hmin', range_succ (n := i + 1)]
    · rw [heq]
      dsimp only at hnew
      obtain rfl : i = k := by omega
      have hmin : min (i + 1) (n + final.toNat) = min (i + 1 + 1) (n + final.toNat) := by omega
      exact ⟨i + 1, h.call i.le_succ hlt (append_nil _).symm (hmin ▸ hrange) (by omega)
        (by omega) (by omega)⟩
  · exact ⟨k, h.call k.le_refl hle (append_nil _).symm hrange (by omega) (by omega) fun _ => rfl⟩
  · exact ⟨k, h⟩

/-- **A run**, call by call. -/
lemma onion_compose (n : ℕ) (final : Bool) (calls : List ℕ) :
    ∃ k, Onion n final k (compose n final calls) :=
  foldlRecOn (motive := fun s => ∃ k, Onion n final k s) calls _
    ⟨0, onion_dispatch n final⟩ fun _ ⟨_, h⟩ i _ => h.next i

/-- **The discipline of the chain**, whatever its stages do. The stages are entered in order and
once each; the first is entered by `compose`, every other one by a call of the `next` of the stage
before it; a middleware that calls its `next` again panics, and the `next` of the handler does
nothing. -/
theorem stages_once_in_order (n : ℕ) (final : Bool) (calls : List ℕ) :
    (∃ k ≤ n + final.toNat, (compose n final calls).entered = range k) ∧
    (compose n final calls).entered = range (min 1 (n + final.toNat)) ++
      (compose n final calls).calls.filterMap enters ∧
    ((compose n final calls).calls.Pairwise fun a b => a.1 = b.1 → a.1 < n → b.2 = .panicked) ∧
    ∀ a ∈ (compose n final calls).calls, a.1 = n → a.2 = .nothing := by
  obtain ⟨k, h⟩ := onion_compose n final calls
  exact ⟨⟨_, Nat.min_le_right _ _, h.entered⟩, h.through, h.again, h.handler⟩

/-- The handler of a chain without middlewares calls its `next` twice, and nothing panics. -/
theorem handler_calls_twice :
    (compose 0 true [0, 0]).entered = [0] ∧
      (compose 0 true [0, 0]).calls = [(0, .nothing), (0, .nothing)] := by
  decide

end Chain

end Yukino.Http
