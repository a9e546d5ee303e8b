import Mathlib.Data.List.AList
import Yukino.Lib.Runs

set_option autoImplicit false

/-!
# The consumer of `components/red_mq`

`Consumer.run` receives messages of a Redis stream, new ones and those that it has not acknowledged
yet. It passes each to a callback and acknowledges it when that succeeds; it counts the failures of
each message, and one that has failed too often is delivered to a mailbox instead.

## Main definitions

* `MsgEntity`, `ConsumerOptions`, `repairConsumer`.
* `State`, `Event`, `step` — the loop of `Consumer.run`, one
  call at a time.

## Design

An event is the outcome of the call that `run` makes next: a reply of Redis, or the result of the
callback or the mailbox, which leave the message that they are given as it is. A callback that
panics has failed, and a context that runs out shows as a call that fails. `failureCnts` is a Go
map, so the order in which `deliverDeadLetter` ranges over it is an event too. The state keeps a
log of what was done, with the latest first.
-/

namespace Yukino.RedMq

structure MsgEntity where
  msgID : String
  key : String
  val : String
  deriving DecidableEq

/-- The options that `run` looks at; durations in nanoseconds. -/
structure ConsumerOptions where
  claimIdle : ℤ := 0
  maxRetryLimit : ℤ := 0

def repairConsumer (opts : ConsumerOptions) : ConsumerOptions :=
  if opts.maxRetryLimit ≤ 0 then { opts with maxRetryLimit := 3 } else opts

/-- The three calls of `handlerMsgs`, by what was received before. -/
inductive Stage
  | claimed
  | received
  | pended
  deriving DecidableEq

/-- The call that comes next. -/
inductive Phase
  /-- The top of the loop: `XAutoClaim`, or `receive` if there is no claiming. -/
  | top
  | receive
  /-- `invoke` of the first message. -/
  | invoke (msg : MsgEntity) (rest : List MsgEntity) (stage : Stage)
  /-- `XACK` after a callback. -/
  | ack (msg : MsgEntity) (rest : List MsgEntity) (stage : Stage)
  /-- The range over `failureCnts`. -/
  | range
  | deliver (msg : MsgEntity) (rest : List MsgEntity)
  /-- `XACK` after a delivery. -/
  | ackDead (msg : MsgEntity) (rest : List MsgEntity)
  | receivePending
  | stopped

/-- What was done. -/
inductive Action
  | invoked (msg : MsgEntity) (ok : Bool)
  | delivered (msg : MsgEntity) (ok : Bool)
  | acked (msgID : String) (ok : Bool)
  deriving DecidableEq

structure State where
  phase : Phase := .top
  failureCnts : AList (fun _ : MsgEntity => ℤ) := ∅
  log : List Action := []

inductive Event
  /-- The reply of a read; `none` is an error, and no message an empty reply. -/
  | autoClaim (reply : Option (List MsgEntity))
  | readGroup (reply : Option (List MsgEntity))
  | readGroupPending (reply : Option (List MsgEntity))
  | callback (ok : Bool)
  | xack (ok : Bool)
  | rangeMap (order : List MsgEntity)
  | mailbox (ok : Bool)
  /-- The context of the consumer is done, at the top of the loop or in `backoff`. -/
  | stop

section Step

variable (opts : ConsumerOptions)

/-- What follows on a call of `handlerMsgs`. -/
def Stage.next : Stage → Phase
  | .claimed => .receive
  | .received => .range
  | .pended => .top

/-- The loop of `handlerMsgs`. -/
def handlerMsgs (stage : Stage) : List MsgEntity → Phase
  | [] => stage.next
  | msg :: rest => .invoke msg rest stage

/-- What follows on a read: after an error, `run` backs off and goes back to the top. -/
def received (stage : Stage) : Option (List MsgEntity) → Phase
  | none => .top
  | some msgs => handlerMsgs stage msgs

namespace State

variable (s : State)

def failureCnt (msg : MsgEntity) : ℤ :=
  (s.failureCnts.lookup msg).getD 0

/-- The loop of `deliverDeadLetter`. -/
def deliverDeadLetter : List MsgEntity → Phase
  | [] => .receivePending
  | msg :: rest =>
    if s.failureCnt msg < opts.maxRetryLimit then deliverDeadLetter rest else .deliver msg rest

/-- The outcome of `Client.XACK`, which refuses an empty ID itself. -/
def acked (msg : MsgEntity) (ok : Bool) : Bool :=
  ok && msg.msgID ≠ ""

end State

/-- The step that an event is, if it can be taken. -/
def step (s : State) : Event → Option State
  | .autoClaim reply =>
    match s.phase with
    | .top =>
      if opts.claimIdle > 0 then some { s with phase := handlerMsgs .claimed (reply.getD []) }
      else none
    | _ => none
  | .readGroup reply =>
    match s.phase with
    | .top =>
      if opts.claimIdle > 0 then none else some { s with phase := received .received reply }
    | .receive => some { s with phase := received .received reply }
    | _ => none
  | .callback ok =>
    match s.phase with
    | .invoke msg rest stage =>
      let log := .invoked msg ok :: s.log
      if ok then some { s with phase := .ack msg rest stage, log }
      else some {
        phase := handlerMsgs stage rest
        failureCnts := s.failureCnts.insert msg (s.failureCnt msg + 1)
        log }
    | _ => none
  | .xack ok =>
    match s.phase with
    | .ack msg rest stage =>
      let ok := State.acked msg ok
      some {
        phase := handlerMsgs stage rest
        failureCnts := if ok then s.failureCnts.erase msg else s.failureCnts
        log := .acked msg.msgID ok :: s.log }
    | .ackDead msg rest =>
      let ok := State.acked msg ok
      let s := { s with
        failureCnts := if ok then s.failureCnts.erase msg else s.failureCnts
        log := .acked msg.msgID ok :: s.log }
      some { s with phase := s.deliverDeadLetter opts rest }
    | _ => none
  | .rangeMap order =>
    match s.phase with
    | .range =>
      if order.Perm s.failureCnts.keys then
        some { s with phase := s.deliverDeadLetter opts order }
      else none
    | _ => none
  | .mailbox ok =>
    match s.phase with
    | .deliver msg rest => some { s with
        phase := if ok then .ackDead msg rest else s.deliverDeadLetter opts rest
        log := .delivered msg ok :: s.log }
    | _ => none
  | .readGroupPending reply =>
    match s.phase with
    | .receivePending => some { s with phase := received .pended reply }
    | _ => none
  | .stop =>
    match s.phase with
    | .top => some { s with phase := .stopped }
    | _ => none

end Step

end Yukino.RedMq
