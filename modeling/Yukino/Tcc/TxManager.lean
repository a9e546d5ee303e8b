import Mathlib.Data.Int.Notation
import Mathlib.Data.List.Perm.Basic
import Yukino.Lib.Runs

set_option autoImplicit false

/-!
# The transaction manager of `components/tcc`

A transaction tries all of its components, and then each of them is confirmed or cancelled. The
caller of `Transaction` decides which, and so does every pass of the monitor, each from the record
of the transaction that it has read from the store.

## Main definitions

* `getComponents` — the components of a transaction, as `Transaction` checks them.
* `Transaction.getStatus` — the decision that a record stands for.
* `State`, `Event`, `step` — one transaction: its `Try` calls, the
  reads of its record, and the drivers in `advanceProgress`.

## Design

The records of a store and the states of a component are kept by transaction, so the model follows
one of them. An operation of the store is atomic. In which order a read lists the components is up
to the store, and the event of the read carries it.

A component may answer a call as it likes (`Answer`, `TryAnswer`), but it refuses `Confirm` after
`Cancel`, `Cancel` after `Confirm`, and `Try` after `Cancel`, as `mockComponent` of the tests does.
Contexts that are cancelled or run out show as calls that fail. A monitor pass is a read, when the
store has the transaction as hanging, and a driver that starts at some later clock value; the lock
of the store expires, so there may be any number of passes at once.
-/

namespace Yukino.Tcc

/-! ## Components -/

/-- The loop of `getComponents` over the requests; `none` is a nil request. -/
def getComponentIDs (seen : List String) : List (Option String) → Except String (List String)
  | [] => .ok []
  | none :: _ => .error "invalid component request"
  | some componentID :: reqs =>
    if componentID = "" then .error "invalid component request"
    else if componentID ∈ seen then .error ("repeat component: " ++ componentID)
    else (getComponentIDs (componentID :: seen) reqs).map (componentID :: ·)

/-- `registryCenter.getComponents`: a component stands for its ID. -/
def registryGetComponents (registered : String → Bool) : List String → Except String (List String)
  | [] => .ok []
  | componentID :: componentIDs =>
    if registered componentID then
      (registryGetComponents registered componentIDs).map (componentID :: ·)
    else .error ("component id: " ++ componentID ++ " not existed")

/-- The components of the requests, or why there is no transaction. -/
def getComponents (registered : String → Bool) (reqs : List (Option String)) :
    Except String (List String) :=
  if reqs.length = 0 then .error "empty task"
  else do
    let componentIDs ← getComponentIDs [] reqs
    let components ← registryGetComponents registered componentIDs
    if componentIDs.length ≠ components.length then .error "invalid componentIDs "
    else .ok components

/-- The state of one transaction at a component, once it has one. -/
inductive ComponentStatus
  | tried
  | confirmed
  | canceled
  deriving DecidableEq

/-- How a component answers `Confirm` and `Cancel`, when it may: it does nothing and returns an
error or no ACK, it acts but its ACK does not arrive, or it acts and acknowledges. -/
inductive Answer
  | refused
  | unacked
  | acked
  deriving DecidableEq

/-- How a component answers `Try`, when it may: it does nothing, it rejects the transaction for
good, it acts but its ACK does not arrive, or it acts and acknowledges. -/
inductive TryAnswer
  | refused
  | rejected
  | unacked
  | acked
  deriving DecidableEq

/-- A call that puts a component into the state `target`, unless it is in the state `against`. -/
def settle (target against : ComponentStatus) (answer : Answer) (status : Option ComponentStatus) :
    Bool × Option ComponentStatus :=
  if status = some against then (false, status)
  else match answer with
    | .refused => (false, status)
    | .unacked => (false, some target)
    | .acked => (true, some target)

/-- `TCCComponent.Confirm`: whether it is acknowledged, and the state afterwards. -/
def confirm : Answer → Option ComponentStatus → Bool × Option ComponentStatus :=
  settle .confirmed .canceled

/-- `TCCComponent.Cancel`. -/
def cancel : Answer → Option ComponentStatus → Bool × Option ComponentStatus :=
  settle .canceled .confirmed

/-- `TCCComponent.Try`. -/
def tryComponent (answer : TryAnswer) (status : Option ComponentStatus) :
    Bool × Option ComponentStatus :=
  if status = some .canceled then (false, status)
  else
    let tried := if status = some .confirmed then status else some .tried
    match answer with
    | .refused => (false, status)
    | .rejected => (false, if status = some .confirmed then status else some .canceled)
    | .unacked => (false, tried)
    | .acked => (true, tried)

/-! ## Records -/

inductive TXStatus
  | hanging
  | successful
  | failure
  deriving DecidableEq

inductive TryStatus
  | hanging
  | successful
  | failure
  deriving DecidableEq

structure ComponentTryEntity where
  componentID : String
  tryStatus : TryStatus

/-- A transaction as a store returns it. -/
structure Transaction where
  components : List ComponentTryEntity
  createdAt : ℤ

/-- The loop of `getStatus`. -/
def getStatusLoop (createdAt createdBefore : ℤ) : Bool → List ComponentTryEntity → TXStatus
  | hangingExist, [] =>
    if hangingExist && createdAt < createdBefore then .failure
    else if hangingExist then .hanging
    else .successful
  | hangingExist, component :: components =>
    if component.tryStatus = .failure then .failure
    else getStatusLoop createdAt createdBefore
      (hangingExist || component.tryStatus ≠ .successful) components

def Transaction.getStatus (tx : Transaction) (createdBefore : ℤ) : TXStatus :=
  getStatusLoop tx.createdAt createdBefore false tx.components

/-! ## One transaction -/

/-- What a transaction is about: the manager's options and registry, and what `getComponents` made
of the requests. -/
structure Config where
  timeout : ℤ
  createdAt : ℤ
  registered : String → Bool
  reqs : List (Option String)
  components : List String
  getComponents_eq : getComponents registered reqs = .ok components

/-- Where the goroutine of a component is in `twoPhaseCommit`. -/
inductive TryPhase
  | trying
  | replied (ack : Bool)
  | finished
  deriving DecidableEq

/-- A call of `advanceProgress`. -/
inductive Driver
  /-- It has its record, and has not looked at the clock yet. -/
  | read (tx : Transaction)
  /-- It has decided, and has these components left. -/
  | calling (success : Bool) (rest : List String)
  | returned

structure State where
  now : ℤ
  /-- The record of the store. -/
  status : TXStatus := .hanging
  tryStatus : String → TryStatus := fun _ => .hanging
  /-- The goroutines of `twoPhaseCommit`. -/
  tries : String → TryPhase := fun _ => .trying
  /-- `twoPhaseCommit` has called `GetTX`. -/
  callerRead : Bool := false
  drivers : List Driver := []
  component : String → Option ComponentStatus := fun _ => none
  /-- The outcomes with which `TXSubmit` was called. -/
  submitted : List Bool := []

inductive Event
  /-- Time passes. -/
  | tick (d : ℕ)
  /-- The `Try` of a component. -/
  | tryOne (componentID : String) (answer : TryAnswer)
  /-- The `TXUpdate` that follows it, and whether the store does it. -/
  | txUpdate (componentID : String) (done : Bool)
  /-- `GetTX` of the caller, once all goroutines have finished. -/
  | getTX (order : List String)
  /-- `GetHangingTXs` of a monitor pass. -/
  | getHangingTXs (order : List String)
  /-- A driver computes the status of its record. -/
  | decide (k : ℕ)
  /-- A driver calls its next component. -/
  | call (k : ℕ) (answer : Answer)
  /-- A driver calls `TXSubmit`, and whether the store does it. -/
  | txSubmit (k : ℕ) (done : Bool)

section Step

variable (cfg : Config)

def initial : State :=
  { now := cfg.createdAt }

/-- The record as the store returns it, in the order that it chooses. -/
def snapshot (s : State) (order : List String) : Transaction :=
  { components := order.map fun componentID => ⟨componentID, s.tryStatus componentID⟩
    createdAt := cfg.createdAt }

/-- The start of `advanceProgress`. -/
def decideStatus (s : State) (tx : Transaction) : Driver :=
  match tx.getStatus (s.now - cfg.timeout) with
  | .hanging => .returned
  | .successful => .calling true (tx.components.map (·.componentID))
  | .failure => .calling false (tx.components.map (·.componentID))

/-- `confirmOrCancel`. -/
def confirmOrCancel (success : Bool) : Answer → Option ComponentStatus →
    Bool × Option ComponentStatus :=
  if success then confirm else cancel

/-- One round of the loop of `advanceProgress`. -/
def callNext (s : State) (k : ℕ) (success : Bool) (componentID : String) (rest : List String)
    (answer : Answer) : State :=
  if cfg.registered componentID then
    let (ack, status) := confirmOrCancel success answer (s.component componentID)
    { s with
      component := Function.update s.component componentID status
      drivers := s.drivers.set k (if ack then .calling success rest else .returned) }
  else { s with drivers := s.drivers.set k .returned }

/-- The store refuses the outcome that is against the one it has. -/
def submit (s : State) (k : ℕ) (success done : Bool) : State :=
  let against : TXStatus := if success then .failure else .successful
  let status := if done && s.status ≠ against then if success then .successful else .failure
    else s.status
  { s with
    status
    submitted := s.submitted ++ [success]
    drivers := s.drivers.set k .returned }

/-- `TXUpdate`, which the goroutine of a component calls once. -/
def update (s : State) (componentID : String) (ack done : Bool) : State :=
  let status : TryStatus := if ack then .successful else .failure
  { s with
    tries := Function.update s.tries componentID .finished
    tryStatus :=
      if done then Function.update s.tryStatus componentID status else s.tryStatus }

/-- The step that an event is, if it can be taken. -/
def step (s : State) : Event → Option State
  | .tick d => some { s with now := s.now + d }
  | .tryOne componentID answer =>
    if componentID ∈ cfg.components ∧ s.tries componentID = .trying then
      let (ack, status) := tryComponent answer (s.component componentID)
      some { s with
        component := Function.update s.component componentID status
        tries := Function.update s.tries componentID (.replied ack) }
    else none
  | .txUpdate componentID done =>
    match s.tries componentID with
    | .replied ack => some (update s componentID ack done)
    | _ => none
  | .getTX order =>
    if order.Perm cfg.components ∧ s.callerRead = false ∧
        ∀ componentID ∈ cfg.components, s.tries componentID = .finished then
      some { s with callerRead := true, drivers := s.drivers ++ [.read (snapshot cfg s order)] }
    else none
  | .getHangingTXs order =>
    if order.Perm cfg.components ∧ s.status = .hanging then
      some { s with drivers := s.drivers ++ [.read (snapshot cfg s order)] }
    else none
  | .decide k =>
    match s.drivers[k]? with
    | some (.read tx) => some { s with drivers := s.drivers.set k (decideStatus cfg s tx) }
    | _ => none
  | .call k answer =>
    match s.drivers[k]? with
    | some (.calling success (componentID :: rest)) =>
      some (callNext cfg s k success componentID rest answer)
    | _ => none
  | .txSubmit k done =>
    match s.drivers[k]? with
    | some (.calling success []) => some (submit s k success done)
    | _ => none

end Step

end Yukino.Tcc
