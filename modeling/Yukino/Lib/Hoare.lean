import Mathlib.Tactic.TypeStar

set_option autoImplicit false

/-!
# Pre- and postconditions of computations with state

A computation in `EStateM` changes a state and may fail; the state stays when it fails. A triple
says that from a state with the precondition the computation returns in a state with the
postcondition, or fails in a state with the error condition.

## Main definitions

* `Hoare.Triple` — the statement.

## Main results

* `Hoare.triple_bind`, `Hoare.triple_get_bind` — sequencing.
* `Hoare.Triple.pre`, `Hoare.Triple.post` — the rule of consequence.
* `Hoare.triple_forM` — loops over a list, by an invariant.
-/

namespace Hoare

variable {ε σ α β : Type}

/-- From a state with `P`, the computation returns with `Q` or fails with `E`. -/
def Triple (P : σ → Prop) (m : EStateM ε σ α) (Q : α → σ → Prop) (E : σ → Prop) : Prop :=
  ∀ s, P s →
    match m s with
    | .ok a s' => Q a s'
    | .error _ s' => E s'

section Rules

variable {P P' : σ → Prop} {Q : α → σ → Prop} {R : β → σ → Prop} {E : σ → Prop}
  {m : EStateM ε σ α} {f : α → EStateM ε σ β}

theorem triple_pure {a : α} (h : ∀ s, P s → Q a s) : Triple P (pure a : EStateM ε σ α) Q E :=
  fun s hs => h s hs

theorem triple_throw {e : ε} (h : ∀ s, P s → E s) : Triple P (throw e : EStateM ε σ α) Q E :=
  fun s hs => h s hs

/-- What holds between two computations. -/
theorem triple_bind (hm : Triple P m Q E) (hf : ∀ a, Triple (Q a) (f a) R E) :
    Triple P (m >>= f) R E := by
  intro s hs
  have hfirst := hm s hs
  show match EStateM.bind m f s with
    | .ok b s' => R b s'
    | .error _ s' => E s'
  unfold EStateM.bind
  cases hms : m s with
  | ok a s' =>
    rw [hms] at hfirst
    exact hf a s' hfirst
  | error e s' =>
    rw [hms] at hfirst
    exact hfirst

/-- A computation that reads the state. -/
theorem triple_get_bind {f : σ → EStateM ε σ β}
    (h : ∀ s, P s → Triple (fun s' => s' = s) (f s) R E) :
    Triple P (get >>= f) R E :=
  fun s hs => h s hs s rfl

theorem Triple.pre (h : Triple P m Q E) (hP : ∀ s, P' s → P s) : Triple P' m Q E :=
  fun s hs => h s (hP s hs)

/-- From a known state on. -/
theorem Triple.of_eq {s : σ} (h : Triple P m Q E) (hs : P s) : Triple (fun s' => s' = s) m Q E := by
  rintro _ rfl
  exact h _ hs

theorem Triple.post {Q' : α → σ → Prop} (h : Triple P m Q E) (hQ : ∀ a s, Q a s → Q' a s) :
    Triple P m Q' E := by
  intro s hs
  have hm := h s hs
  cases hms : m s with
  | ok a s' =>
    rw [hms] at hm
    exact hQ a s' hm
  | error e s' =>
    rw [hms] at hm
    exact hm

theorem triple_ite {c : Prop} [Decidable c] {m' : EStateM ε σ α} (h : c → Triple P m Q E)
    (h' : ¬ c → Triple P m' Q E) : Triple P (if c then m else m') Q E := by
  by_cases hc : c
  · rw [if_pos hc]
    exact h hc
  · rw [if_neg hc]
    exact h' hc

/-- A loop over a list. -/
theorem triple_forM {l : List α} {f : α → EStateM ε σ PUnit}
    (h : ∀ a ∈ l, Triple P (f a) (fun _ => P) E) : Triple P (l.forM f) (fun _ => P) E := by
  induction l with
  | nil => exact triple_pure fun _ hs => hs
  | cons a l ih =>
    refine triple_bind (h a List.mem_cons_self) fun _ => ?_
    exact ih (List.forall_mem_cons.1 h).2

end Rules

end Hoare
