import Yukino.Lib.Processes
import Yukino.Lib.Runs

set_option autoImplicit false

/-!
# The conversation workers of `apps/creative_agent`

A request of a conversation is a row of a table and a message of a Redis stream. Workers take the
messages, lock the request in Redis, take the row over and run the engine; a scanner looks for rows
whose worker has not sent a heartbeat, and puts them back into the stream.

## Main definitions

* `Conversation.Store`, `Store.answer` — the table, the stream, the locks and
  the chunks, with the calls on them.
* `Conversation.handleConversation` — a worker with a message.
* `Conversation.scanOnce` — `RecoveryScanner.ScanOnce`.
* `Conversation.World`, `advance` — workers and scanners at work, crashes,
  heartbeats and time.

## Design

Every call succeeds. Times are in milliseconds. A message that has been delivered stays in the
stream and is not delivered again: `ClaimPending` is called by nobody.
-/

namespace Yukino.CreativeAgent.Conversation

open Processes

/-! ## Stores -/

inductive AsyncStatus
  | pending
  | inProgress
  | completed
  | failed
  deriving DecidableEq

/-- A row of `cg_async_request`. -/
structure AsyncRequest where
  id : ℕ
  asyncRequestID : String
  messageID : String
  status : AsyncStatus
  attemptCount : ℕ
  heartbeatAt : ℕ
  workerID : String
  deriving DecidableEq

/-- What a message says of its request; the rest is passed to the engine. -/
structure Payload where
  asyncRequestID : String
  msgID : String
  deriving DecidableEq

structure Store where
  now : ℕ
  rows : List AsyncRequest
  /-- The messages of the stream. -/
  stream : List Payload
  /-- How many of them have been delivered. -/
  delivered : ℕ
  acked : List ℕ
  /-- The heartbeat locks, with the times when they end. -/
  locks : List (String × ℕ)
  /-- The messages whose chunks have an end of turn. -/
  endTurns : List String
  deriving DecidableEq

namespace Store

def locked (s : Store) (msgID : String) : Bool :=
  s.locks.any fun l => l.1 = msgID ∧ s.now < l.2

def delLock (s : Store) (msgID : String) : Store :=
  { s with locks := s.locks.filter fun l => l.1 ≠ msgID }

def setLock (s : Store) (msgID : String) : Store :=
  { s with locks := (msgID, s.now + 30000) :: s.locks.filter fun l => l.1 ≠ msgID }

def modifyRows (s : Store) (P : AsyncRequest → Bool) (f : AsyncRequest → AsyncRequest) : Store :=
  { s with rows := s.rows.map fun r => if P r then f r else r }

/-- The row that can be taken over. -/
def isOpen (asyncRequestID : String) (r : AsyncRequest) : Bool :=
  r.asyncRequestID = asyncRequestID ∧ r.status = .pending

def takenOver (s : Store) (workerID : String) (r : AsyncRequest) : AsyncRequest :=
  { r with
    status := .inProgress
    workerID := workerID
    heartbeatAt := s.now
    attemptCount := r.attemptCount + 1 }

def listZombies (s : Store) : List AsyncRequest :=
  s.rows.filter fun r => r.status = .inProgress ∧ r.heartbeatAt + 15000 < s.now

def push (s : Store) (p : Payload) : Store :=
  { s with stream := s.stream ++ [p] }

end Store

/-! ## Calls -/

inductive CallError
  | unavailable
  | conflict
  | chunkExpired
  deriving DecidableEq

/-- How the engine ends. -/
inductive EngineResult
  /-- A fast path has handled the request. -/
  | handled
  | failed
  | finished
  deriving DecidableEq

inductive Call
  | setNX (msgID workerID : String)
  | del (msgID : String)
  | takeover (asyncRequestID workerID : String)
  | ack (entry : ℕ)
  | runEngine (p : Payload)
  | writeEndTurn (msgID : String)
  | rebuildChatText (msgID : String)
  | hasEndTurn (msgID : String)
  | markTerminal (id : ℕ) (status : AsyncStatus)
  | listZombies
  | resetForRetry (id : ℕ)
  | requeue (p : Payload)

abbrev Call.Answer : Call → Type
  | .setNX _ _ => Bool
  | .del _ => Unit
  | .takeover _ _ => AsyncRequest
  | .ack _ => Unit
  | .runEngine _ => EngineResult
  | .writeEndTurn _ => Unit
  | .rebuildChatText _ => Unit
  | .hasEndTurn _ => Bool
  | .markTerminal _ _ => Unit
  | .listZombies => List AsyncRequest
  | .resetForRetry _ => Unit
  | .requeue _ => Unit

abbrev stores : Interface where
  Call := Call
  Result c := Except CallError c.Answer

/-- What a call does; how the engine ends is chosen. -/
def Store.answer (s : Store) (x : EngineResult) : (c : Call) → Store × Except CallError c.Answer
  | .setNX msgID _ => if s.locked msgID then (s, .ok false) else (s.setLock msgID, .ok true)
  | .del msgID => (s.delLock msgID, .ok ())
  | .takeover asyncRequestID workerID =>
    match s.rows.find? (isOpen asyncRequestID) with
    | none => (s, .error .conflict)
    | some r => (s.modifyRows (isOpen asyncRequestID) (s.takenOver workerID),
        .ok (s.takenOver workerID r))
  | .ack entry => ({ s with acked := entry :: s.acked }, .ok ())
  | .runEngine _ => (s, .ok x)
  | .writeEndTurn msgID => ({ s with endTurns := msgID :: s.endTurns }, .ok ())
  | .rebuildChatText msgID =>
    if msgID ∈ s.endTurns then (s, .ok ()) else (s, .error .chunkExpired)
  | .hasEndTurn msgID => (s, .ok (msgID ∈ s.endTurns))
  | .markTerminal id status =>
    (s.modifyRows (fun r => r.id = id) fun r => { r with status := status }, .ok ())
  | .listZombies => (s, .ok s.listZombies)
  | .resetForRetry id =>
    (s.modifyRows (fun r => r.id = id) fun r => { r with status := .pending, workerID := "" },
      .ok ())
  | .requeue p => (s.push p, .ok ())

abbrev Task : Type → Type :=
  Prog stores

abbrev call (c : Call) : Task (Except CallError c.Answer) :=
  Prog.perform (I := stores) c

/-! ## Workers and scanners -/

/-- The request gets its last status, and the lock and the message are released. -/
def finish (entry : ℕ) (p : Payload) (row : AsyncRequest) (status : AsyncStatus) : Task Unit := do
  let _ ← call (.markTerminal row.id status)
  let _ ← call (.del p.msgID)
  let _ ← call (.ack entry)
  pure ()

/-- Steps 3 to 7 of a worker. A fast path ends with the end of the turn as well, whatever happens
to the text. -/
def process (entry : ℕ) (p : Payload) (row : AsyncRequest) : Task Unit := do
  match ← call (.runEngine p) with
  | .ok .handled =>
    let _ ← call (.writeEndTurn p.msgID)
    let _ ← call (.rebuildChatText p.msgID)
    finish entry p row .completed
  | .ok .finished =>
    let _ ← call (.writeEndTurn p.msgID)
    match ← call (.rebuildChatText p.msgID) with
    | .ok _ => finish entry p row .completed
    | .error .chunkExpired => finish entry p row .failed
    | .error _ =>
      -- the row stays in progress for the scanner
      let _ ← call (.del p.msgID)
      pure ()
  | _ => finish entry p row .failed

def handleConversation (workerID : String) (entry : ℕ) (p : Payload) : Task Unit := do
  match ← call (.setNX p.msgID workerID) with
  | .ok true =>
    match ← call (.takeover p.asyncRequestID workerID) with
    | .ok row => process entry p row
    | .error _ =>
      let _ ← call (.del p.msgID)
      let _ ← call (.ack entry)
      pure ()
  | _ =>
    let _ ← call (.ack entry)
    pure ()

/-- What a scan does with one row. -/
def recover (z : AsyncRequest) : Task Unit :=
  if 3 ≤ z.attemptCount then do
    let _ ← call (.markTerminal z.id .failed)
    pure ()
  else do
    match ← call (.hasEndTurn z.messageID) with
    | .error _ => pure ()
    | .ok true =>
      match ← call (.rebuildChatText z.messageID) with
      | .error _ =>
        let _ ← call (.markTerminal z.id .failed)
        pure ()
      | .ok _ =>
        let _ ← call (.markTerminal z.id .completed)
        pure ()
    | .ok false =>
      match ← call (.resetForRetry z.id) with
      | .error _ => pure ()
      | .ok _ =>
        let _ ← call (.requeue ⟨z.asyncRequestID, z.messageID⟩)
        pure ()

def recoverAll : List AsyncRequest → Task Unit
  | [] => pure ()
  | z :: zs => do
    recover z
    recoverAll zs

def scanOnce : Task Unit := do
  match ← call .listZombies with
  | .error _ => pure ()
  | .ok zombies => recoverAll zombies

/-! ## The system -/

/-- A worker with a message, or a scanner. -/
structure Proc where
  payload : Option Payload
  task : Task Unit
  alive : Bool

structure World where
  store : Store
  procs : List Proc

inductive Event
  /-- A row is inserted and its message is pushed. -/
  | accept (asyncRequestID msgID : String)
  /-- A worker gets the next message. -/
  | receive (workerID : String)
  | startScan
  | call (i : ℕ) (x : EngineResult)
  | crash (i : ℕ)
  /-- The two parts of a heartbeat. -/
  | renewLock (i : ℕ)
  | renewRow (i : ℕ)
  | tick (ms : ℕ)
  | chunksExpire (msgID : String)

/-- The ids are new ones. -/
def Store.isNew (s : Store) (asyncRequestID msgID : String) : Bool :=
  s.rows.all fun r => r.asyncRequestID ≠ asyncRequestID ∧ r.messageID ≠ msgID

def Store.accept (s : Store) (asyncRequestID msgID : String) : Store :=
  { s with
    rows := s.rows ++ [⟨s.rows.length, asyncRequestID, msgID, .pending, 0, 0, ""⟩]
    stream := s.stream ++ [⟨asyncRequestID, msgID⟩] }

/-- A lock that has not ended is kept for another 30 seconds. -/
def Store.expire (s : Store) (msgID : String) : Store :=
  if s.locked msgID then s.setLock msgID else s

def Store.updateHeartbeat (s : Store) (asyncRequestID : String) : Store :=
  s.modifyRows (fun r => r.asyncRequestID = asyncRequestID) fun r => { r with heartbeatAt := s.now }

def advance (w : World) : Event → Option World
  | .accept asyncRequestID msgID =>
    if w.store.isNew asyncRequestID msgID then
      some { w with store := w.store.accept asyncRequestID msgID }
    else none
  | .receive workerID =>
    match w.store.stream[w.store.delivered]? with
    | none => none
    | some p => some
      { store := { w.store with delivered := w.store.delivered + 1 }
        procs := w.procs ++ [⟨some p, handleConversation workerID w.store.delivered p, true⟩] }
  | .startScan => some { w with procs := w.procs ++ [⟨none, scanOnce, true⟩] }
  | .call i x =>
    match w.procs[i]? with
    | some ⟨payload, .call c k, true⟩ => some
      { store := (w.store.answer x c).1
        procs := w.procs.set i ⟨payload, k (w.store.answer x c).2, true⟩ }
    | _ => none
  | .crash i =>
    match w.procs[i]? with
    | some ⟨payload, task, true⟩ => some { w with procs := w.procs.set i ⟨payload, task, false⟩ }
    | _ => none
  | .renewLock i =>
    match w.procs[i]? with
    | some ⟨some p, .call _ _, true⟩ => some { w with store := w.store.expire p.msgID }
    | _ => none
  | .renewRow i =>
    match w.procs[i]? with
    | some ⟨some p, .call _ _, true⟩ =>
      some { w with store := w.store.updateHeartbeat p.asyncRequestID }
    | _ => none
  | .tick ms => some { w with store := { w.store with now := w.store.now + ms } }
  | .chunksExpire msgID =>
    some { w with store := { w.store with endTurns := w.store.endTurns.filter (· ≠ msgID) } }

/-- No requests yet. -/
def initial : World where
  store := ⟨0, [], [], 0, [], [], []⟩
  procs := []

end Yukino.CreativeAgent.Conversation
