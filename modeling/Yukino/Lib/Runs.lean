import Mathlib.Data.Nat.Notation
import Mathlib.Data.Option.Basic

set_option autoImplicit false

/-!
# Runs of a machine

A machine takes one step for each event, and a step may not be possible. The rules below carry a
property along a run, of any machine and for any condition on the steps.

## Main definitions

* `Runs.run` — the state after a list of events.
* `Runs.along` — every step of the run meets a condition.

## Main results

* `Runs.invariant` — what every step keeps, every run keeps.
* `Runs.along_invariant` — the same for the runs whose steps all meet a condition.
* `Runs.along_of_prefixes` — the steps of a run meet a condition, if each step after which a
  property holds does.
-/

namespace Runs

variable {σ ε : Type*}

/-- The state after the events, if every step is possible. -/
def run (step : σ → ε → Option σ) (s : σ) : List ε → Option σ
  | [] => some s
  | e :: es => (step s e).bind fun s' => run step s' es

/-- Every step of the run meets the condition in the state before it. -/
def along (step : σ → ε → Option σ) (ok : σ → ε → Bool) (s : σ) : List ε → Bool
  | [] => true
  | e :: es => ok s e && (step s e).all fun s' => along step ok s' es

variable {step : σ → ε → Option σ} {ok : σ → ε → Bool} {s s' : σ} {es : List ε}

lemma run_cons {e : ε} (h : run step s (e :: es) = some s') :
    ∃ s₁, step s e = some s₁ ∧ run step s₁ es = some s' :=
  Option.bind_eq_some_iff.1 h

lemma run_append (es' : List ε) :
    run step s (es ++ es') = (run step s es).bind fun s' => run step s' es' := by
  induction es generalizing s with
  | nil => rfl
  | cons e es ih => simp only [List.cons_append, run, ih, Option.bind_assoc]

/-- **A run keeps what every step keeps**, if its steps meet the condition. -/
theorem along_invariant {I : σ → Prop}
    (hstep : ∀ s e s', I s → ok s e = true → step s e = some s' → I s') (hinit : I s)
    (hok : along step ok s es = true) (hrun : run step s es = some s') : I s' := by
  induction es generalizing s with
  | nil =>
    cases hrun
    exact hinit
  | cons e es ih =>
    obtain ⟨s₁, hs₁, hrun⟩ := run_cons hrun
    rw [along, hs₁, Bool.and_eq_true] at hok
    exact ih (hstep s e s₁ hinit hok.1 hs₁) hok.2 hrun

lemma along_true : along step (fun _ _ => true) s es = true := by
  induction es generalizing s with
  | nil => rfl
  | cons e es ih =>
    rw [along]
    cases step s e with
    | none => rfl
    | some s' => exact ih

/-- **A run keeps what every step keeps.** -/
theorem invariant {I : σ → Prop} (hstep : ∀ s e s', I s → step s e = some s' → I s')
    (hinit : I s) (hrun : run step s es = some s') : I s' :=
  along_invariant (fun s e s' h _ => hstep s e s' h) hinit along_true hrun

/-- **The steps of a run meet a condition**, if a step does after which the property holds, and the
property holds after every part of the run. -/
theorem along_of_prefixes {I P : σ → Prop}
    (hstep : ∀ s e s', I s → step s e = some s' → P s' → ok s e = true ∧ I s') (hinit : I s)
    (hrun : run step s es = some s')
    (htake : ∀ n s₁, run step s (es.take n) = some s₁ → P s₁) : along step ok s es = true := by
  induction es generalizing s with
  | nil => rfl
  | cons e es ih =>
    obtain ⟨s₁, hs₁, hrun⟩ := run_cons hrun
    have hafter : P s₁ := htake 1 s₁ (by rw [List.take_succ_cons, run, hs₁]; rfl)
    obtain ⟨hok, hkeep⟩ := hstep s e s₁ hinit hs₁ hafter
    rw [along, hs₁, Bool.and_eq_true]
    refine ⟨hok, ih hkeep hrun fun n s₂ hrun₂ => htake (n + 1) s₂ ?_⟩
    rw [List.take_succ_cons, run, hs₁]
    exact hrun₂

end Runs
