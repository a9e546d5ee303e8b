import Yukino.Rpc.Breaker

set_option autoImplicit false

/-!
# Calls through a circuit breaker

`Invoke`, `InvokeAsync` and `InvokeStream` ask the breaker of their service and address before they
send, and report to it afterwards: when they cannot send, when the future of the call completes, or
when the consumer of the stream meets its end.

## Main definitions

* `Attempt`, `Attempt.step` — a call, and its steps with what they report.
* `Breakers`, `Breakers.step` — the breakers of a client with all its calls.

## Design

A step holds at most one access to a breaker or to the lock of a future. `Future.Done` sets the
result under the lock, then runs the callback, and then closes the channel; whoever calls it second
returns at once. Pools, connections and codecs appear by their outcomes only.
-/

namespace Yukino.Rpc

inductive Method
  | Invoke
  | InvokeAsync
  | InvokeStream
  deriving DecidableEq

/-- How far a call has come. -/
inductive Stage
  | idle
  /-- The limiter has let it through, and it has an address. -/
  | addressed
  | allowed
  | acquired
  | marshalled
  /-- It has a future, without its callback. -/
  | sent
  /-- `invokeAsync` has returned the future. -/
  | returned
  | streaming
  /-- The consumer of the stream has got an error, or has gone. -/
  | closed
  | finished
  deriving DecidableEq

structure Attempt where
  method : Method := .Invoke
  stage : Stage := .idle
  /-- The key of its breaker. -/
  key : String := ""
  /-- `Allow` has let it through. -/
  allowed : Bool := false
  records : List Record := []
  complete : Bool := false
  /-- What the completion of the future reports. -/
  result : Record := .success
  /-- `OnComplete` has set the callback. -/
  callback : Bool := false
  /-- `Done` is about to run the callback. -/
  calling : Bool := false
  /-- The channel of the future is closed. -/
  closed : Bool := false
  /-- `once` of the stream is used up. -/
  once : Bool := false

/-- What `Recv` of a stream returns. -/
inductive Received
  | frame
  | eof
  | canceled
  /-- Any other error, a missed deadline included. -/
  | failed
  deriving DecidableEq

inductive AttemptEvent
  /-- The limiter refuses the call, or it has no address. -/
  | refuse
  | begin (method : Method) (key : String)
  | acquire (ok : Bool)
  | marshal (ok : Bool)
  | send (ok : Bool)
  | onComplete
  /-- Anyone calls `Done`: `readLoop`, `shutdown`, the timer of `InvokeAsync`, or `Invoke` whose
  context has ended. -/
  | done (result : Record)
  | callback
  /-- The channel of the future is closed. -/
  | wait
  /-- `Invoke` returns since its context has ended, and someone else has called `Done`. -/
  | abandon
  | recv (r : Received)
  /-- The context of a stream is cancelled and its consumer goes. -/
  | leave
  deriving DecidableEq

namespace Attempt

/-- A step of a call, with what it reports to its breaker. -/
def step (c : Attempt) : AttemptEvent → Option (Attempt × Option Record)
  | .refuse => if c.stage = .idle then some ({ c with stage := .finished }, none) else none
  | .begin method key =>
    if c.stage = .idle then
      some ({ c with stage := .addressed, method := method, key := key }, none)
    else none
  | .acquire ok =>
    if c.stage = .allowed then
      if ok then some ({ c with stage := .acquired }, none)
      else some ({ c with stage := .finished }, some .failure)
    else none
  | .marshal ok =>
    if c.stage = .acquired then
      some ({ c with stage := if ok then .marshalled else .finished }, none)
    else none
  | .send ok =>
    if c.stage = .marshalled then
      if ok then
        some ({ c with stage := if c.method = .InvokeStream then .streaming else .sent }, none)
      else some ({ c with stage := .finished }, some .failure)
    else none
  | .onComplete =>
    if c.stage = .sent then
      if c.complete then some ({ c with stage := .returned }, some c.result)
      else some ({ c with stage := .returned, callback := true }, none)
    else none
  | .done result =>
    if c.stage = .sent ∨ c.stage = .returned then
      if c.complete then some (c, none)
      else if c.callback then
        some ({ c with complete := true, result := result, calling := true }, none)
      else some ({ c with complete := true, result := result, closed := true }, none)
    else none
  | .callback =>
    if c.calling then some ({ c with calling := false, closed := true }, some c.result) else none
  | .wait =>
    if c.stage = .returned ∧ c.closed = true then some ({ c with stage := .finished }, none)
    else none
  | .abandon =>
    if c.stage = .returned ∧ c.method = .Invoke ∧ c.complete = true then
      some ({ c with stage := .finished }, none)
    else none
  | .recv r =>
    if c.stage = .streaming ∨ c.stage = .closed then
      match r with
      | .frame => some (c, none)
      | .canceled => some ({ c with stage := .closed }, none)
      | .eof =>
        some ({ c with stage := .closed, once := true }, if c.once then none else some .success)
      | .failed =>
        some ({ c with stage := .closed, once := true }, if c.once then none else some .failure)
    else none
  | .leave => if c.stage = .streaming then some ({ c with stage := .closed }, none) else none

/-- The call with what it has reported in a step. -/
def add (c : Attempt) (r : Option Record) : Attempt :=
  { c with records := c.records ++ r.toList }

def hasFinished (c : Attempt) : Bool :=
  c.stage = .finished ∨ c.stage = .closed

/-- **The call reports**: its arguments can be marshalled, the consumer of its stream gets EOF or an
error other than `context.Canceled` before it goes, and `Invoke` does not return while someone is
about to report the completion of its future. -/
def reports (c : Attempt) : AttemptEvent → Bool
  | .marshal ok => ok
  | .recv .canceled | .leave => c.once
  | .abandon => !c.calling
  | _ => true

end Attempt

/-- The breakers of a client, with its calls. -/
structure Breakers where
  now : ℤ := 0
  breakers : String → CircuitBreaker := fun _ => {}
  calls : ℕ → Attempt := fun _ => {}
  /-- The call that a breaker has let through last. -/
  granted : String → ℕ := fun _ => 0

inductive BreakersEvent
  | call (i : ℕ) (e : AttemptEvent)
  | allow (i : ℕ)
  | tick (d : ℕ)

namespace Breakers

variable (cfg : BreakerConfig)

/-- A call reports to its breaker. -/
def report (s : Breakers) (i : ℕ) (c : Attempt) (r : Option Record) : Breakers :=
  { s with
    calls := Function.update s.calls i (c.add r)
    breakers := match r with
      | none => s.breakers
      | some o => Function.update s.breakers c.key ((s.breakers c.key).record cfg s.now o) }

def step (s : Breakers) : BreakersEvent → Option Breakers
  | .call i e => ((s.calls i).step e).map fun (c, r) => s.report cfg i c r
  | .allow i =>
    let c := s.calls i
    if c.stage = .addressed then
      match (s.breakers c.key).Allow cfg s.now with
      | (true, br) => some { s with
          breakers := Function.update s.breakers c.key br
          calls := Function.update s.calls i { c with stage := .allowed, allowed := true }
          granted := Function.update s.granted c.key i }
      | (false, br) => some { s with
          breakers := Function.update s.breakers c.key br
          calls := Function.update s.calls i { c with stage := .finished } }
    else none
  | .tick d => some { s with now := s.now + d }

/-- The condition on a step. -/
def reports (s : Breakers) : BreakersEvent → Bool
  | .call i e => (s.calls i).reports e
  | _ => true

end Breakers

end Yukino.Rpc
