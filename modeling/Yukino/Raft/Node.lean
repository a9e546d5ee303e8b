import Yukino.Raft.Core

set_option autoImplicit false

/-!
# The driver of a Raft node (`node.go`, `ready.go`)

`Node.run` is a loop around one `select`: it steps messages, ticks, applies membership
changes, hands out a `Ready` and takes an `Advance` back. One round of the loop is a
function of the loop's variables and of what the `select` receives.

## Main definitions

* `Ready`, `newReady` — `ready.go`.
* `Node` — the variables of `Node.run`, with the values handed out so far.
* `Input`, `Node.handle` — one round of the loop.
* `startNode` — `StartNode`.

## Design

A round starts with the computation of the next `Ready`, as the loop does before its
`select`. An input that the `select` would not receive (a `Ready` without updates, an
`Advance` that nobody waits for) leaves the node as it is. The list `handed` of all values
sent on the channel `readyChan` is not a variable of the source: it records the node's
output.
-/

namespace Yukino.Replica

structure Ready where
  softState : Option SoftState := none
  hardState : HardState := {}
  readStates : List ReadState := []
  entries : List Entry := []
  committedEntries : List Entry := []
  message : List Message := []
  deriving DecidableEq, Repr

def newReady (r : Raft) (preSoft : SoftState) (preHard : HardState) : Go Ready := do
  let committedEntries ← r.raftLog.nextEntries
  .ok {
    softState := if r.softState ≠ preSoft then some r.softState else none
    hardState := if r.hardState ≠ preHard then r.hardState else emptyHardState
    readStates := r.readStates
    entries := r.raftLog.unstableEntries
    committedEntries := committedEntries
    message := r.msgs }

def Ready.containsUpdates (rd : Ready) : Bool :=
  rd.softState.isSome || !isEmptyHardState rd.hardState || rd.entries.length > 0 ||
    rd.committedEntries.length > 0 || rd.message.length > 0 || rd.readStates.length > 0

/-- The variables of `Node.run`. `advanceChan` says whether the channel is set, that is,
whether a `Ready` was handed out and not yet advanced. -/
structure Node where
  raft : Raft
  rd : Ready := {}
  advanceChan : Bool := false
  prevSoft : SoftState
  prevHard : HardState := emptyHardState
  prevLastUnstableI : ℕ := 0
  prevLastUnstableT : ℕ := 0
  hasPrevLastUnstableI : Bool := false
  handed : List Ready := []

/-- What the `select` of `Node.run` receives: a proposal on `proc`, a message on
`recvChan`, a membership change on `confChan`, a tick, a reader on `readyChan`, or a value
on `advanceChan`. -/
inductive Input
  | proc (m : Message)
  | recv (m : Message)
  | conf (cc : ConfChange)
  | tick
  | ready
  | advance

namespace Node

/-- The top of the loop: unless a `Ready` is outstanding, compute the next one. -/
def prepare (n : Node) : Go Node :=
  if n.advanceChan then .ok n
  else do
    let rd ← newReady n.raft n.prevSoft n.prevHard
    .ok { n with rd }

/-- The case `readyChan <- rd` of the `select`. -/
def takeReady (n : Node) : Node :=
  let last := n.rd.entries.getLast?
  { n with
    prevSoft := n.rd.softState.getD n.prevSoft
    prevHard := if !isEmptyHardState n.rd.hardState then n.rd.hardState else n.prevHard
    prevLastUnstableI := (last.map Entry.index).getD n.prevLastUnstableI
    prevLastUnstableT := (last.map Entry.term).getD n.prevLastUnstableT
    hasPrevLastUnstableI := n.hasPrevLastUnstableI || last.isSome
    raft := { n.raft with msgs := [], readStates := [] }
    advanceChan := true
    handed := n.handed ++ [n.rd] }

/-- The first part of the case `<-advanceChan`: save the hard state, move `applyIndex`. -/
def saveHardState (n : Node) : Go RaftLog :=
  let raftLog :=
    if !isEmptyHardState n.prevHard then
      { n.raft.raftLog with storage := n.raft.raftLog.storage.setHardState n.prevHard }
    else n.raft.raftLog
  if n.prevHard.commitIndex ≠ 0 then raftLog.appliedTo n.prevHard.commitIndex
  else .ok raftLog

/-- The second part of the case `<-advanceChan`: save the entries of the `Ready`. -/
def saveEntries (n : Node) (raftLog : RaftLog) : Go RaftLog :=
  if n.hasPrevLastUnstableI then
    match raftLog.storage.append n.rd.entries with
    | .error err => .error (.storage err)
    | .ok storage =>
      .ok ({ raftLog with storage }.stableTo n.prevLastUnstableI n.prevLastUnstableT)
  else .ok raftLog

/-- The case `<-advanceChan` of the `select`. -/
def takeAdvance (n : Node) : Go Node := do
  let raftLog ← n.saveHardState
  let raftLog ← n.saveEntries raftLog
  .ok { n with
    raft := { n.raft with raftLog }
    hasPrevLastUnstableI := false
    advanceChan := false }

/-- One round of the loop of `Node.run`. -/
def handle (n : Node) (input : Input) : Go Node := do
  let n ← n.prepare
  match input with
  | .proc m => do
    let raft ← n.raft.step { m with fromID := n.raft.id }
    .ok { n with raft }
  | .recv m => do
    let raft ← n.raft.step m
    .ok { n with raft }
  | .conf cc => .ok { n with raft := n.raft.applyConfChange cc }
  | .tick => do
    let raft ← n.raft.tick
    .ok { n with raft }
  | .ready => .ok (if !n.advanceChan ∧ n.rd.containsUpdates then n.takeReady else n)
  | .advance => if n.advanceChan then n.takeAdvance else .ok n

/-- The entries delivered so far: the `CommittedEntries` of all values handed out. -/
def delivered (n : Node) : List Entry := (n.handed.map Ready.committedEntries).flatten

end Node

/-- `StartNode(conf, peers)`. -/
def startNode (conf : Config) (peers : List ℕ) (rand : ℕ → ℕ) : Go Node := do
  let r ← newRaft conf rand
  let r := peers.foldl Raft.addNode r
  let r := { r with raftLog := { r.raftLog with commitIndex := r.raftLog.lastIndex } }
  .ok { raft := r, prevSoft := r.softState }

/-! ## The calls of the embedding application -/

/-- The message of `Campaign`. -/
def campaignMsg : Message := { type := .msgHup }

/-- The message of `Propose`. -/
def proposeMsg (data : Bytes) : Message := { type := .msgProp, entries := [{ data }] }

/-- The message of `ProposeConfChange`, where `data` is the change in JSON. -/
def proposeConfChangeMsg (data : Bytes) : Message :=
  { type := .msgProp, entries := [{ type := .confChange, data }] }

/-- The message of `ReadIndex`. -/
def readIndexMsg (rctx : Bytes) : Message :=
  { type := .msgReadIndex, entries := [{ data := rctx }] }

/-- `Node.step`: a proposal goes to `proc`, every other message to `recvChan`. -/
def Input.ofMessage (m : Message) : Input :=
  if m.type = .msgProp then .proc m else .recv m

end Yukino.Replica
