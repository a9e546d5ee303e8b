import Mathlib.Data.Finset.Basic
import Yukino.Lib.Runs

set_option autoImplicit false

/-!
# The circuit breaker of `libs/yukino_rpc`

## Main definitions

* `CircuitBreaker` — a breaker.
* `CircuitBreaker.Allow`, `CircuitBreaker.RecordSuccess`,
  `CircuitBreaker.RecordFailure` — its operations.
* `Period`, `Period.step` — a breaker with the calls that use it.

## Main results

* `CircuitBreaker.record_ne_halfOpen` — a breaker is not half-open after a record.
* `Period.halfOpen_by_probe` — a half-open breaker changes by the result of its probe only, if no
  call is in progress when it becomes half-open.

## Design

The time is a parameter of the operations. The comparison of the failure rate with the threshold is
one of floating-point numbers; a breaker has any such comparison of two counts.
-/

namespace Yukino.Rpc

open Option

inductive BreakerState
  | Closed
  | Open
  | HalfOpen
  deriving DecidableEq

/-- What a breaker is made with. -/
structure BreakerConfig where
  windowSize : ℤ
  /-- The rate of so many failures in so many calls is not under the threshold. -/
  exceeds : ℕ → ℕ → Bool
  openTimeout : ℤ

structure CircuitBreaker where
  state : BreakerState := .Closed
  failureCount : ℕ := 0
  successCount : ℕ := 0
  lastStateChange : ℤ := 0
  halfOpenProbe : Bool := false

/-- What a call reports to its breaker. -/
inductive Record
  | success
  | failure
  deriving DecidableEq

namespace CircuitBreaker

variable (cfg : BreakerConfig) (now : ℤ) (cb : CircuitBreaker)

def Allow : Bool × CircuitBreaker :=
  match cb.state with
  | .Closed => (true, cb)
  | .Open =>
    if now - cb.lastStateChange > cfg.openTimeout then
      (true, { cb with state := .HalfOpen, halfOpenProbe := true })
    else (false, cb)
  | .HalfOpen =>
    if cb.halfOpenProbe then (false, cb) else (true, { cb with halfOpenProbe := true })

def resetCounts : CircuitBreaker :=
  { cb with failureCount := 0, successCount := 0 }

def toOpen : CircuitBreaker :=
  { cb.resetCounts with state := .Open, lastStateChange := now, halfOpenProbe := false }

def toClosed : CircuitBreaker :=
  { cb.resetCounts with state := .Closed, lastStateChange := now, halfOpenProbe := false }

/-- `resetClosedWindowIfReady`, which `RecordFailure` repeats. -/
def resetClosedWindowIfReady : CircuitBreaker :=
  let total := cb.failureCount + cb.successCount
  if (total : ℤ) < cfg.windowSize then cb
  else if cfg.exceeds cb.failureCount total then cb.toOpen now
  else cb.resetCounts

def RecordSuccess : CircuitBreaker :=
  match cb.state with
  | .Closed => resetClosedWindowIfReady cfg now { cb with successCount := cb.successCount + 1 }
  | .HalfOpen => cb.toClosed now
  | .Open => cb

def RecordFailure : CircuitBreaker :=
  match cb.state with
  | .Closed => resetClosedWindowIfReady cfg now { cb with failureCount := cb.failureCount + 1 }
  | .HalfOpen => cb.toOpen now
  | .Open => cb

def record : Record → CircuitBreaker
  | .success => cb.RecordSuccess cfg now
  | .failure => cb.RecordFailure cfg now

/-! ## Half-open breakers -/

lemma resetClosedWindowIfReady_ne_halfOpen (h : cb.state ≠ .HalfOpen) :
    (cb.resetClosedWindowIfReady cfg now).state ≠ .HalfOpen := by
  unfold resetClosedWindowIfReady
  dsimp only
  split_ifs
  · exact h
  · nofun
  · exact h

/-- **A record ends the half-open state.** -/
theorem record_ne_halfOpen (o : Record) : (cb.record cfg now o).state ≠ .HalfOpen := by
  cases o with
  | success | failure =>
    simp only [record, RecordSuccess, RecordFailure]
    cases hstate : cb.state with
    | Closed => exact resetClosedWindowIfReady_ne_halfOpen cfg now _ nofun
    | Open => simp [hstate]
    | HalfOpen => nofun

/-- A call that is not let through leaves the breaker as it is. -/
lemma Allow_refused (h : (cb.Allow cfg now).1 = false) : (cb.Allow cfg now).2 = cb := by
  unfold Allow at h ⊢
  cases hstate : cb.state with
  | Closed => rfl
  | Open | HalfOpen =>
    rw [hstate] at h
    dsimp only at h ⊢
    split_ifs at h ⊢
    rfl

/-- A breaker is half-open after `Allow` if it was before, or if it has been open long enough. -/
lemma Allow_halfOpen (h : (cb.Allow cfg now).2.state = .HalfOpen) :
    cb.state = .HalfOpen ∨ cb.state = .Open ∧ now - cb.lastStateChange > cfg.openTimeout ∧
      cb.Allow cfg now = (true, { cb with state := .HalfOpen, halfOpenProbe := true }) := by
  unfold Allow at h ⊢
  cases hstate : cb.state with
  | Closed =>
    rw [hstate] at h
    exact absurd (hstate.symm.trans h) nofun
  | HalfOpen => exact .inl rfl
  | Open =>
    rw [hstate] at h
    dsimp only at h ⊢
    split_ifs at h ⊢ with htime
    · exact .inr ⟨rfl, htime, rfl⟩
    · exact absurd (hstate.symm.trans h) nofun

end CircuitBreaker

/-! ## Calls on one breaker -/

/-- A breaker with its calls: each asks `Allow` once and, if it is let through, reports once. -/
structure Period where
  now : ℤ := 0
  cb : CircuitBreaker := {}
  asked : Finset ℕ := ∅
  /-- The calls that were let through and have not reported. -/
  running : Finset ℕ := ∅
  /-- The last call that was let through by a half-open breaker. -/
  probe : ℕ := 0

inductive PeriodEvent
  | allow (i : ℕ)
  | record (i : ℕ) (o : Record)
  | tick (d : ℕ)

namespace Period

variable (cfg : BreakerConfig)

def step (s : Period) : PeriodEvent → Option Period
  | .allow i =>
    if i ∈ s.asked then none else
    let r := s.cb.Allow cfg s.now
    some { s with
      cb := r.2
      asked := insert i s.asked
      running := if r.1 then insert i s.running else s.running
      probe := if r.1 ∧ r.2.state = .HalfOpen then i else s.probe }
  | .record i o =>
    if i ∈ s.running then
      some { s with cb := s.cb.record cfg s.now o, running := s.running.erase i }
    else none
  | .tick d => some { s with now := s.now + d }

/-- When a breaker becomes half-open, no call is in progress. -/
def settled (s : Period) : PeriodEvent → Bool
  | .allow _ => s.cb.state = .Open → s.now - s.cb.lastStateChange > cfg.openTimeout → s.running = ∅
  | _ => true

/-- In a half-open period the probe is the only call in progress. -/
def Inv (s : Period) : Prop :=
  s.cb.state = .HalfOpen → s.cb.halfOpenProbe = true ∧ s.running = {s.probe}

variable {cfg} {s s' : Period}

/-- A half-open breaker refuses every further call. -/
lemma Inv.allow_eq (h : s.Inv) (hstate : s.cb.state = .HalfOpen) :
    s.cb.Allow cfg s.now = (false, s.cb) := by
  rw [CircuitBreaker.Allow, hstate]
  exact if_pos (h hstate).1

lemma Inv.step {e : PeriodEvent} (h : s.Inv) (hok : s.settled cfg e = true)
    (hs : s.step cfg e = some s') : s'.Inv := by
  cases e with
  | allow i =>
    obtain ⟨-, hs⟩ := ite_none_left_eq_some.1 hs
    cases hs
    intro hstate
    obtain hold | ⟨hold, htime, heq⟩ := CircuitBreaker.Allow_halfOpen cfg _ _ hstate
    · rw [h.allow_eq hold]
      exact h hold
    · rw [heq]
      exact ⟨rfl, by simp [of_decide_eq_true hok hold htime]⟩
  | record i o =>
    obtain ⟨-, hs⟩ := ite_none_right_eq_some.1 hs
    cases hs
    exact fun hstate => absurd hstate (CircuitBreaker.record_ne_halfOpen cfg _ _ o)
  | tick d =>
    cases hs
    exact h

/-- **Half-open decisions come from the probe.** In a run in which no call is in progress whenever
the breaker becomes half-open, a step of a half-open breaker leaves it as it is, or reports the
result of the call that was let through in this period: a success closes the breaker and a failure
opens it. -/
theorem halfOpen_by_probe {es : List PeriodEvent} {e : PeriodEvent}
    (hok : Runs.along (step cfg) (settled cfg) {} es = true)
    (hrun : Runs.run (step cfg) {} es = some s) (hs : s.step cfg e = some s')
    (hstate : s.cb.state = .HalfOpen) :
    s'.cb = s.cb ∨ ∃ o, e = .record s.probe o ∧
      s'.cb.state = match o with
        | .success => .Closed
        | .failure => .Open := by
  have hinv : s.Inv :=
    Runs.along_invariant (fun _ _ _ h hok hs => h.step hok hs) (fun h => by cases h) hok hrun
  cases e with
  | allow i =>
    obtain ⟨-, hs⟩ := ite_none_left_eq_some.1 hs
    cases hs
    exact .inl (congrArg Prod.snd (hinv.allow_eq hstate))
  | record i o =>
    obtain ⟨hi, hs⟩ := ite_none_right_eq_some.1 hs
    cases hs
    rw [(hinv hstate).2, Finset.mem_singleton] at hi
    refine .inr ⟨o, by rw [hi], ?_⟩
    cases o <;> simp [CircuitBreaker.record, CircuitBreaker.RecordSuccess,
      CircuitBreaker.RecordFailure, hstate, CircuitBreaker.toClosed, CircuitBreaker.toOpen]
  | tick d =>
    cases hs
    exact .inl rfl

/-- A breaker that one failure opens. -/
def touchy : BreakerConfig := ⟨1, fun failures _ => failures = 1, 10⟩

/-- The probe succeeds. -/
theorem halfOpen_by_probe_success :
    ∃ s s', Runs.run (step touchy) {} [.allow 0, .record 0 .failure, .tick 11, .allow 1] = some s ∧
      s.cb.state = .HalfOpen ∧ s.step touchy (.record 1 .success) = some s' ∧
      s'.cb.state = .Closed := by
  have hok : Runs.along (step touchy) (settled touchy) {}
    [.allow 0, .record 0 .failure, .tick 11, .allow 1] = true := by decide +kernel
  refine ⟨_, _, rfl, rfl, rfl, ?_⟩
  obtain heq | ⟨o, he, hstate⟩ :=
    halfOpen_by_probe (e := .record 1 .success) hok rfl rfl rfl
  · exact absurd (congrArg CircuitBreaker.state heq) nofun
  · cases he
    exact hstate

/-- The call `1` was let through before the breaker opened; its result closes the breaker while the
probe, the call `2`, is in progress. -/
theorem halfOpen_by_late_call :
    ∃ s s', Runs.run (step touchy) {} [.allow 0, .allow 1, .record 0 .failure, .tick 11,
        .allow 2] = some s ∧
      s.cb.state = .HalfOpen ∧ s.probe = 2 ∧ s.step touchy (.record 1 .success) = some s' ∧
      s'.cb.state = .Closed ∧ 2 ∈ s'.running :=
  ⟨_, _, rfl, rfl, rfl, rfl, rfl, by decide +kernel⟩

end Period

end Yukino.Rpc
