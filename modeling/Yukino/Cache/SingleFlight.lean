import Mathlib.Tactic.Basic
import Yukino.Lib.Runs

set_option autoImplicit false

/-!
# The calls that share a result

`SingleFlightGroup.Do` runs `fn` unless a call for the key is in the map, and else waits for the
result of that call. A call leaves the map only after its waiters are woken, so a `Do` that comes
between the end of `fn` and `Delete` gets a result that was there before it was called.

## Main definitions

* `SingleFlight.State`, `SingleFlight.step` — calls of `Do` on one key.
* `SingleFlight.Fresh` — the result of a `Do` is that of an `fn` that had not finished when the `Do`
  was called.
* `SingleFlight.calm` — the condition on a step.

## Main results

* `SingleFlight.Inv.step` — what a step keeps.
* `SingleFlight.shared_fresh` — at most one `fn` runs, and results are fresh in the runs whose steps
  meet the condition.

## Design

A `Do` is known by a number, which is also that of its `call`. A panic of `fn` is recovered, and its
error is a result like any other. The times at which a `Do` was called and its `fn` finished are
numbers of steps; the code does not read them.
-/

namespace Yukino.Caches.SingleFlight

/-- Where a `Do` is. The first three stages after `LoadOrStore` are those of the one that runs
`fn`. -/
inductive Stage (ρ : Type)
  | absent
  | called
  | running
  /-- `fn` has returned, `wg.Done` comes next. -/
  | finished
  /-- `Delete` comes next. -/
  | signalled
  /-- It waits for the call of another one. -/
  | waiting (call : ℕ)
  /-- It has returned this result of a call. -/
  | returned (call : ℕ) (result : ρ)

structure Do (ρ : Type) where
  stage : Stage ρ := .absent
  /-- `val` and `err` of its call. -/
  result : Option ρ := none
  /-- The wait group of its call is done. -/
  done : Bool := false
  calledAt : ℕ := 0
  finishedAt : Option ℕ := none

structure State (ρ : Type) where
  dos : ℕ → Do ρ := fun _ => {}
  /-- The call in the map. -/
  entry : Option ℕ := none
  time : ℕ := 0

inductive Event (ρ : Type)
  | call (i : ℕ)
  | loadOrStore (i : ℕ)
  | finish (i : ℕ) (result : ρ)
  | done (i : ℕ)
  | delete (i : ℕ)
  /-- `Wait` returns. -/
  | wake (i : ℕ)

variable {ρ : Type}

def State.set (s : State ρ) (i : ℕ) (d : Do ρ) : State ρ :=
  { s with dos := Function.update s.dos i d, time := s.time + 1 }

/-- The step that an event is, if it can be taken. -/
def step (s : State ρ) : Event ρ → Option (State ρ)
  | .call i =>
    match (s.dos i).stage with
    | .absent => some (s.set i { s.dos i with stage := .called, calledAt := s.time })
    | _ => none
  | .loadOrStore i =>
    match (s.dos i).stage, s.entry with
    | .called, some c => some (s.set i { s.dos i with stage := .waiting c })
    | .called, none => some { s.set i { s.dos i with stage := .running } with entry := some i }
    | _, _ => none
  | .finish i result =>
    match (s.dos i).stage with
    | .running => some (s.set i { s.dos i with
        stage := .finished, result := some result, finishedAt := some s.time })
    | _ => none
  | .done i =>
    match (s.dos i).stage with
    | .finished => some (s.set i { s.dos i with stage := .signalled, done := true })
    | _ => none
  | .delete i =>
    match (s.dos i).stage, (s.dos i).result with
    | .signalled, some result =>
      some { s.set i { s.dos i with stage := .returned i result } with entry := none }
    | _, _ => none
  | .wake i =>
    match (s.dos i).stage with
    | .waiting c =>
      match (s.dos c).done, (s.dos c).result with
      | true, some result => some (s.set i { s.dos i with stage := .returned c result })
      | _, _ => none
    | _ => none

/-- The result that a `Do` has returned is that of an `fn` that had not finished when the `Do` was
called. -/
def Fresh (s : State ρ) : Prop :=
  ∀ i c result, (s.dos i).stage = .returned c result → (s.dos c).result = some result ∧
    ∃ t, (s.dos c).finishedAt = some t ∧ (s.dos i).calledAt ≤ t

/-- The condition on a step: `Do` is called only when no call in the map has a result already. -/
def calm (s : State ρ) : Event ρ → Bool
  | .call _ => s.entry.all fun c => (s.dos c).finishedAt.isNone
  | _ => true

/-! ## What a step keeps -/

/-- The `Do` owns the call in the map. -/
def Stage.owns : Stage ρ → Bool
  | .running | .finished | .signalled => true
  | _ => false

/-- The stages without a result of their own call. -/
def Stage.early : Stage ρ → Bool
  | .absent | .called | .running => true
  | _ => false

structure Inv (s : State ρ) : Prop where
  owner : ∀ i, (s.dos i).stage.owns = true ↔ s.entry = some i
  early : ∀ i, (s.dos i).stage.early = true → (s.dos i).finishedAt = none ∧ (s.dos i).result = none
  result : ∀ i, (s.dos i).result.isSome = (s.dos i).finishedAt.isSome
  returned : ∀ i c r, (s.dos i).stage = .returned c r → (s.dos c).result = some r

/-- The calls that a `Do` may get its result from had not finished when it was called. -/
structure Timely (s : State ρ) : Prop where
  calledAt : ∀ i, (s.dos i).calledAt ≤ s.time
  own : ∀ i t, (s.dos i).finishedAt = some t → (s.dos i).calledAt ≤ t
  called : ∀ i c t, (s.dos i).stage = .called → s.entry = some c →
    (s.dos c).finishedAt = some t → (s.dos i).calledAt ≤ t
  waiting : ∀ i c t, (s.dos i).stage = .waiting c → (s.dos c).finishedAt = some t →
    (s.dos i).calledAt ≤ t
  returned : ∀ i c r t, (s.dos i).stage = .returned c r → (s.dos c).finishedAt = some t →
    (s.dos i).calledAt ≤ t

variable {s s' : State ρ} {e : Event ρ}

/-- What a step does: one `Do` moves on, and the map changes only when its call is stored in it or
deleted. -/
lemma step_cases (h : step s e = some s') : ∃ i,
    (e = .call i ∧ (s.dos i).stage = .absent ∧
      s' = s.set i { s.dos i with stage := .called, calledAt := s.time }) ∨
    (∃ c, (s.dos i).stage = .called ∧ s.entry = some c ∧
      s' = s.set i { s.dos i with stage := .waiting c }) ∨
    ((s.dos i).stage = .called ∧ s.entry = none ∧
      s' = { s.set i { s.dos i with stage := .running } with entry := some i }) ∨
    (∃ r, (s.dos i).stage = .running ∧ s' = s.set i { s.dos i with
      stage := .finished, result := some r, finishedAt := some s.time }) ∨
    ((s.dos i).stage = .finished ∧
      s' = s.set i { s.dos i with stage := .signalled, done := true }) ∨
    (∃ r, (s.dos i).stage = .signalled ∧ (s.dos i).result = some r ∧
      s' = { s.set i { s.dos i with stage := .returned i r } with entry := none }) ∨
    (∃ c r, (s.dos i).stage = .waiting c ∧ (s.dos c).result = some r ∧
      s' = s.set i { s.dos i with stage := .returned c r }) := by
  cases e with
  | wake i =>
    refine ⟨i, ?_⟩
    simp only [step] at h
    split at h
    · split at h <;> simp_all
    · cases h
  | finish i r =>
    refine ⟨i, .inr (.inr (.inr (.inl ⟨r, ?_⟩)))⟩
    simp only [step] at h
    split at h <;> simp_all
  | call i | loadOrStore i | done i | delete i =>
    refine ⟨i, ?_⟩
    simp only [step] at h
    split at h <;> simp_all

/-- **A step keeps the invariant.** -/
lemma Inv.step (h : Inv s) (hstep : step s e = some s') : Inv s' := by
  obtain ⟨howner, hearly, hresult, hreturned⟩ := h
  obtain ⟨i, ⟨rfl, hi, rfl⟩ | ⟨c, hi, hc, rfl⟩ | ⟨hi, hc, rfl⟩ | ⟨r, hi, rfl⟩ | ⟨hi, rfl⟩ |
    ⟨r, hi, hr, rfl⟩ | ⟨c, r, hi, hr, rfl⟩⟩ := step_cases hstep
  all_goals
    refine ⟨fun j => ?_, fun j => ?_, fun j => ?_, fun j c r => ?_⟩
    all_goals
      simp only [State.set, Function.update_apply]
      grind -ring -linarith [Stage.owns, Stage.early]

/-- **A step that meets the condition keeps the times in order.** -/
lemma Timely.step (h : Timely s) (hinv : Inv s) (hcalm : calm s e = true)
    (hstep : step s e = some s') : Timely s' := by
  obtain ⟨htime, hself, hcalled, hwaiting, hreturned⟩ := h
  obtain ⟨howner, hearly, -, -⟩ := hinv
  obtain ⟨i, ⟨rfl, hi, rfl⟩ | ⟨c, hi, hc, rfl⟩ | ⟨hi, hc, rfl⟩ | ⟨r, hi, rfl⟩ | ⟨hi, rfl⟩ |
    ⟨r, hi, hr, rfl⟩ | ⟨c, r, hi, hr, rfl⟩⟩ := step_cases hstep
  all_goals
    have hear := hearly i
    clear hearly hstep howner
    refine ⟨fun j => ?_, fun j t => ?_, fun j c t => ?_, fun j c t => ?_, fun j c r t => ?_⟩
    all_goals
      simp only [State.set, Function.update_apply]
    · clear hself hcalled hwaiting hreturned
      grind -ring -linarith
    · clear hcalled hwaiting hreturned
      grind -ring -linarith [Stage.early]
    · clear hwaiting hreturned
      grind -ring -linarith [Stage.owns, Stage.early, calm]
    · clear hreturned
      grind -ring -linarith [Stage.owns, Stage.early, calm]
    · clear hcalled
      grind -ring -linarith [Stage.owns, Stage.early]

/-- **One `fn` at a time, and fresh results.** In every run at most one `Do` runs `fn`; and if every
step of the run meets the condition, every result that was returned is fresh.

**Proof sketch.** The `Do` that owns the call in the map is the only one that may run `fn`. A `Do`
that is called while the call in the map has no result, or while there is none, can only wait for a
call that finishes later: a call is stored in the map before it runs `fn`. -/
theorem shared_fresh {es : List (Event ρ)} {s : State ρ} (hrun : Runs.run step {} es = some s) :
    (∀ i j, (s.dos i).stage = .running → (s.dos j).stage = .running → i = j) ∧
      (Runs.along step calm {} es = true → Fresh s) := by
  have hinit : Inv ({} : State ρ) := by
    constructor <;> simp [Stage.owns]
  have hinv : Inv s := Runs.invariant (fun _ _ _ h hs => h.step hs) hinit hrun
  refine ⟨fun i j hi hj => ?_, fun hcalm i c r hr => ?_⟩
  · have hown := (hinv.owner i).1 (by rw [hi]; rfl)
    have hown' := (hinv.owner j).1 (by rw [hj]; rfl)
    exact Option.some.inj (hown.symm.trans hown')
  · have hstart : Timely ({} : State ρ) := by
      constructor <;> simp
    have hkeep : ∀ (s : State ρ) e s', Inv s ∧ Timely s → calm s e = true →
        step s e = some s' → Inv s' ∧ Timely s' :=
      fun _ _ _ h hok hs => ⟨h.1.step hs, h.2.step h.1 hok hs⟩
    have htimely := Runs.along_invariant hkeep ⟨hinit, hstart⟩ hcalm hrun
    have hresult := hinv.returned i c r hr
    have hsome := hinv.result c
    rw [hresult] at hsome
    obtain ⟨t, ht⟩ := Option.isSome_iff_exists.1 hsome.symm
    exact ⟨hresult, t, ht, htimely.2.returned i c r t hr ht⟩

/-- Two calls, of which the second comes while the first one runs `fn`. -/
theorem shared_fresh_two :
    let es : List (Event String) := [.call 0, .loadOrStore 0, .call 1, .loadOrStore 1,
      .finish 0 "v", .done 0, .delete 0, .wake 1]
    ∃ s, Runs.run step {} es = some s ∧ (s.dos 1).stage = .returned 0 "v" ∧ Fresh s := by
  intro es
  have hrun : Runs.run step {} es = some _ := rfl
  exact ⟨_, hrun, rfl, (shared_fresh hrun).2 rfl⟩

/-- A `Do` that is called after `fn` has finished and before `Delete` gets the old result. -/
theorem finished_result_shared :
    let es : List (Event String) := [.call 0, .loadOrStore 0, .finish 0 "v", .call 1, .done 0,
      .loadOrStore 1, .wake 1]
    ∃ s, Runs.run step {} es = some s ∧ (s.dos 1).stage = .returned 0 "v" ∧
      (s.dos 0).finishedAt = some 2 ∧ (s.dos 1).calledAt = 3 ∧ ¬ Fresh s := by
  refine ⟨_, rfl, rfl, rfl, rfl, fun h => ?_⟩
  obtain ⟨-, t, ht, hle⟩ := h 1 0 "v" rfl
  cases ht
  exact absurd hle (by decide)

end Yukino.Caches.SingleFlight
