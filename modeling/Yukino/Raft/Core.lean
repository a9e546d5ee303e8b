import Yukino.Raft.Log

set_option autoImplicit false

/-!
# The Raft state machine (`raft.go`, `follower.go`, `candidate.go`, `leader.go`)

The state of one Raft node and its reaction to messages and ticks.

## Main definitions

* `Raft` — the struct `raft`.
* `Raft.step` — the method `Step`, with `stepFollower`, `stepCandidate` and `stepLeader` behind it.
* `Raft.tick` — the method behind the field `tick`.
* `Raft.applyConfChange` — a membership change.
* `newRaft` — a node's state at start, from its storage.

## Design

The fields `tick` and `step` of the struct hold functions; here they hold the name of the
function (`TickFunc`, `StepFunc`). The numbers that `rand.Intn` returns are read from the
stream `rand`, one for each call, so that a statement about all streams is one about all
outcomes. Sending appends to `msgs`, as in the source; the messages leave the node with
the next `Ready`.
-/

namespace Yukino.Replica

/-- The values of the field `tick`. -/
inductive TickFunc
  | tickElection
  | tickHeartbeat
  deriving DecidableEq, Repr

/-- The values of the field `step`. -/
inductive StepFunc
  | stepFollower
  | stepCandidate
  | stepLeader
  deriving DecidableEq, Repr

structure Raft where
  id : ℕ
  term : ℕ := 0
  readStates : List ReadState := []
  raftLog : RaftLog
  prs : AList (fun _ : ℕ => Progress) := ∅
  state : StateType := .follower
  votes : AList (fun _ : ℕ => Bool) := ∅
  msgs : List Message := []
  lead : ℕ := noneID
  pendingConf : Bool := false
  readOnly : ReadOnly := {}
  preVote : Bool := false
  tickFunc : TickFunc := .tickElection
  stepFunc : StepFunc := .stepFollower
  vote : ℕ := noneID
  checkQuorum : Bool := false
  electionTimeout : Int32 := 0
  randomizedElectionTimeout : Int32 := 0
  electionElapsed : Int32 := 0
  heartbeatTimeout : Int32 := 0
  heartbeatElapsed : Int32 := 0
  rand : ℕ → ℕ

namespace Raft

/-! ## `raft.go`: bookkeeping -/

def resetRandomizedElectionTimeout (r : Raft) : Raft :=
  let n := if r.electionTimeout ≤ 0 then 1 else r.electionTimeout
  { r with
    randomizedElectionTimeout := n + Int32.ofNat (r.rand 0 % n.toInt.toNat)
    rand := fun k => r.rand (k + 1) }

def reset (r : Raft) (term : ℕ) : Raft :=
  resetRandomizedElectionTimeout
    { r with
      term := if r.term ≠ term then term else r.term
      vote := if r.term ≠ term then noneID else r.vote
      lead := noneID
      electionElapsed := 0
      heartbeatElapsed := 0
      votes := ∅
      pendingConf := false }

def softState (r : Raft) : SoftState := { lead := r.lead, raftState := r.state }

def hardState (r : Raft) : HardState :=
  { term := r.term, vote := r.vote, commitIndex := r.raftLog.commitIndex }

/-- The message as `send` puts it into `msgs`: the sender is filled in, and every message
but a proposal or a read carries the sender's term, whatever term it was built with. -/
def stamp (r : Raft) (m : Message) : Message :=
  let m := if m.fromID = noneID then { m with fromID := r.id } else m
  if m.type ≠ .msgProp ∧ m.type ≠ .msgReadIndex then { m with term := r.term } else m

def send (r : Raft) (m : Message) : Raft := { r with msgs := r.msgs ++ [r.stamp m] }

def quorum (r : Raft) : ℕ := r.prs.keys.length / 2 + 1

def promotable (r : Raft) (id : ℕ) : Bool := id ∈ r.prs

def pastElectionTimeout (r : Raft) : Bool := r.electionElapsed ≥ r.randomizedElectionTimeout

/-- The number of granted votes. -/
def granted (r : Raft) : ℕ := r.votes.entries.countP fun v => v.2

/-- `poll(id, v)`: the first answer of each node counts. The result `granted` of the
source is `granted` of the new state. -/
def poll (r : Raft) (id : ℕ) (v : Bool) : Raft :=
  if id ∈ r.votes then r else { r with votes := r.votes.insert id v }

def maybeCommit (r : Raft) : Go (Raft × Bool) :=
  let matches_ := r.prs.entries.map fun pr => pr.2.matchIndex
  match (matches_.insertionSort (· ≥ ·))[r.quorum - 1]? with
  | none => .error .indexOutOfRange
  | some mid => do
    let (raftLog, updated) ← r.raftLog.maybeCommit mid r.term
    .ok ({ r with raftLog }, updated)

/-- The entries as `appendEntry` appends them. -/
def stampEntries (r : Raft) (es : List Entry) : List Entry :=
  es.mapIdx fun i e => { e with term := r.term, index := r.raftLog.lastIndex + i + 1 }

/-- The first part of `appendEntry`: the log and the node's own progress. -/
def extendLog (r : Raft) (es : List Entry) : Go Raft := do
  let raftLog ← r.raftLog.append (r.stampEntries es)
  match r.prs.lookup r.id with
  | none => .error .nilPointer
  | some pr =>
    .ok { r with
      raftLog := raftLog
      prs := r.prs.insert r.id (pr.maybeUpdate raftLog.lastIndex).1 }

def appendEntry (r : Raft) (es : List Entry) : Go Raft := do
  let r ← r.extendLog es
  let (r, _) ← r.maybeCommit
  .ok r

/-! ## Role changes -/

def becomeFollower (r : Raft) (term lead : ℕ) : Raft :=
  { r.reset term with
    stepFunc := .stepFollower
    tickFunc := .tickElection
    lead := lead
    state := .follower }

/-- The state after `becomePreCandidate`. -/
def asPreCandidate (r : Raft) : Raft :=
  { r with
    stepFunc := .stepCandidate
    tickFunc := .tickElection
    votes := ∅
    state := .preCandidate }

def becomePreCandidate (r : Raft) : Go Raft :=
  if r.state = .leader then .error (.raised "invalid transition leader -> pre-candidate")
  else .ok r.asPreCandidate

/-- The state after `becomeCandidate`. -/
def asCandidate (r : Raft) : Raft :=
  { r.reset (r.term + 1) with
    stepFunc := .stepCandidate
    tickFunc := .tickElection
    vote := r.id
    state := .candidate }

def becomeCandidate (r : Raft) : Go Raft :=
  if r.state = .leader then .error (.raised "invalid transition leader -> candidate")
  else .ok r.asCandidate

/-- The loop of `becomeLeader` over `prs`: the progress of every peer but the node itself
starts afresh. -/
def resetProgress (r : Raft) (lastIndex : ℕ) : AList (fun _ : ℕ => Progress) :=
  r.prs.keys.foldl
    (fun prs id => if id = r.id then prs else prs.insert id { next := lastIndex + 1 }) r.prs

/-- The state in which `becomeLeader` appends its first entry. -/
def asLeader (r : Raft) : Raft :=
  { r.reset r.term with
    stepFunc := .stepLeader
    tickFunc := .tickHeartbeat
    lead := r.id
    state := .leader
    prs := r.resetProgress r.raftLog.lastIndex }

def becomeLeader (r : Raft) : Go Raft :=
  if r.state = .follower then .error (.raised "invalid transition [follower -> leader]")
  else r.asLeader.appendEntry [{ data := [] }]

/-- The vote request that `campaign` sends to `id`. -/
def voteRequest (r : Raft) (term : ℕ) (msgType : MessageType) (lastTerm id : ℕ) : Message :=
  { term := term, toID := id, type := msgType, logTerm := lastTerm,
    logIndex := r.raftLog.lastIndex }

/-- The role change with which `campaign` starts. -/
def becomeCampaigner (typ : CampaignType) (r : Raft) : Go Raft :=
  match typ with
  | .preElection => r.becomePreCandidate
  | .election => r.becomeCandidate

/-- The type of the vote requests of `campaign`. -/
def campaignMsgType : CampaignType → MessageType
  | .preElection => .msgPreVote
  | .election => .msgVote

/-- The term that `campaign` puts into its vote requests. -/
def campaignTerm (typ : CampaignType) (r : Raft) : ℕ :=
  match typ with
  | .preElection => r.term + 1
  | .election => r.term

/-- `campaign` of either kind. `won` is what follows when the node's own vote is a quorum
already. The term of the requests is overwritten by `send`. -/
def campaignWith (typ : CampaignType) (won : Raft → Go Raft) (r : Raft) : Go Raft := do
  let r ← becomeCampaigner typ r
  let term := campaignTerm typ r
  let r := r.poll r.id true
  if r.quorum = r.granted then won r
  else
    r.prs.keys.foldlM (fun r id =>
      if id = r.id then .ok r
      else do
        let lastTerm ← r.raftLog.lastTerm
        .ok (r.send (r.voteRequest term (campaignMsgType typ) lastTerm id))) r

def campaign (typ : CampaignType) (r : Raft) : Go Raft :=
  match typ with
  | .election => campaignWith .election becomeLeader r
  | .preElection => campaignWith .preElection (campaignWith .election becomeLeader) r

/-! ## `leader.go`: messages to the followers -/

def sendHeartbeat (r : Raft) (id : ℕ) (ctx : Bytes) : Go Raft :=
  match r.prs.lookup id with
  | none => .error .nilPointer
  | some pr =>
    let commit := min r.raftLog.commitIndex pr.matchIndex
    .ok (r.send { toID := id, type := .msgHeartbeat, commitIndex := commit, context := ctx })

def broadcastHeartbeatWithCtx (r : Raft) (ctx : Bytes) : Go Raft :=
  r.prs.keys.foldlM (fun r id => if id = r.id then .ok r else r.sendHeartbeat id ctx) r

def broadcastHeartbeat (r : Raft) : Go Raft := r.broadcastHeartbeatWithCtx []

def sendAppend (r : Raft) (id : ℕ) : Go Raft :=
  match r.prs.lookup id with
  | none => .error .nilPointer
  | some pr => do
    let term := match r.raftLog.term (pr.next - 1) with
      | .ok t => t
      | .error _ => 0
    let entries ← r.raftLog.entriesFrom pr.next
    .ok (r.send { toID := id, type := .msgApp, logTerm := term, logIndex := pr.next - 1,
                  entries := entries, commitIndex := r.raftLog.commitIndex })

def broadcastAppend (r : Raft) : Go Raft :=
  r.prs.keys.foldlM (fun r id => if id = r.id then .ok r else r.sendAppend id) r

/-! ## `follower.go` -/

def handleAppendEntries (r : Raft) (m : Message) : Go Raft := do
  match ← r.raftLog.maybeAppend m.logIndex m.logTerm m.commitIndex m.entries with
  | some (raftLog, mLastIndex) =>
    let r := { r with raftLog }
    .ok (r.send { toID := m.fromID, type := .msgAppResp, logIndex := mLastIndex })
  | none =>
    .ok (r.send { toID := m.fromID, type := .msgAppResp, logIndex := m.logIndex,
                  reject := true, rejectHint := r.raftLog.lastIndex })

def handleHeartbeat (r : Raft) (m : Message) : Go Raft := do
  let raftLog ← r.raftLog.commitTo (min m.commitIndex r.raftLog.lastIndex)
  let r := { r with raftLog }
  .ok (r.send { toID := m.fromID, type := .msgHeartbeatResp, context := m.context })

def stepFollower (r : Raft) (m : Message) : Go Raft :=
  match m.type with
  | .msgProp => if r.lead = noneID then .ok r else .ok (r.send { m with toID := r.lead })
  | .msgApp => { r with electionElapsed := 0, lead := m.fromID }.handleAppendEntries m
  | .msgHeartbeat => { r with electionElapsed := 0, lead := m.fromID }.handleHeartbeat m
  | .msgReadIndex => if r.lead = noneID then .ok r else .ok (r.send { m with toID := r.lead })
  | .msgReadIndexResp =>
    match m.entries with
    | [] => .error .indexOutOfRange
    | e :: _ =>
      .ok { r with readStates := r.readStates ++ [{ index := m.logIndex, requestCtx := e.data }] }
  | _ => .ok r

/-! ## `candidate.go` -/

/-- `voteRespType` of `stepCandidate`. -/
def voteRespType (r : Raft) : MessageType :=
  if r.state = .preCandidate then .msgPreVoteResp else .msgVoteResp

/-- The case `voteRespType` of `stepCandidate`. -/
def handleVoteResp (r : Raft) (m : Message) : Go Raft :=
  let r := r.poll m.fromID (!m.reject)
  if r.quorum = r.granted then
    if r.state = .preCandidate then r.campaign .election
    else do
      let r ← r.becomeLeader
      r.broadcastAppend
  else if r.quorum = r.votes.keys.length - r.granted then .ok (r.becomeFollower r.term noneID)
  else .ok r

def stepCandidate (r : Raft) (m : Message) : Go Raft :=
  match m.type with
  | .msgProp => .ok r
  | .msgApp => (r.becomeFollower r.term m.fromID).handleAppendEntries m
  | .msgHeartbeat => (r.becomeFollower m.term m.fromID).handleHeartbeat m
  | type => if type = r.voteRespType then r.handleVoteResp m else .ok r

/-! ## `leader.go` -/

/-- The loop of the case `MsgProp`: while a membership change is pending, a proposed one
is replaced by an empty entry. The result has the value of `pendingConf` after the loop. -/
def filterConf : Bool → List Entry → List Entry × Bool
  | pending, [] => ([], pending)
  | pending, e :: es =>
    if e.type = .confChange then
      let (es, last) := filterConf true es
      (if pending then { type := .normal } :: es else e :: es, last)
    else
      let (es, last) := filterConf pending es
      (e :: es, last)

/-- The case `MsgProp` of `stepLeader`. -/
def handleProp (r : Raft) (m : Message) : Go Raft :=
  if m.entries.length = 0 then .error (.raised "propose entries can not be empty")
  else if r.id ∉ r.prs then .ok r
  else do
    let (entries, pendingConf) := filterConf r.pendingConf m.entries
    let r ← { r with pendingConf }.appendEntry entries
    r.broadcastAppend

/-- The case `MsgReadIndex` of `stepLeader`. -/
def handleReadIndex (r : Raft) (m : Message) : Go Raft :=
  if r.id ∉ r.prs then .ok r
  else if r.prs.keys.length > 1 then do
    let t ← RaftLog.zeroTermOnErrCompacted (r.raftLog.term r.raftLog.commitIndex)
    if t ≠ r.term then .ok r
    else match m.entries with
      | [] => .error .indexOutOfRange
      | e :: _ =>
        let (readOnly, added) := r.readOnly.addRequest e.data r.raftLog.commitIndex m
        let r := { r with readOnly }
        if added then r.broadcastHeartbeatWithCtx e.data else .ok r
  else match m.entries with
    | [] => .error .indexOutOfRange
    | e :: _ =>
      .ok { r with readStates :=
              r.readStates ++ [{ index := r.raftLog.commitIndex, requestCtx := e.data }] }

/-- The case `MsgAppResp` of `stepLeader`, for the sender's progress `pr`. -/
def handleAppResp (r : Raft) (m : Message) (pr : Progress) : Go Raft :=
  if m.reject then
    let (pr, decreased) := pr.mayDecreaseTo m.logIndex m.rejectHint
    let r := { r with prs := r.prs.insert m.fromID pr }
    if decreased then r.sendAppend m.fromID else .ok r
  else
    let (pr, updated) := pr.maybeUpdate m.logIndex
    let r := { r with prs := r.prs.insert m.fromID pr }
    if updated then do
      let (r, committed) ← r.maybeCommit
      if committed then r.broadcastAppend else .ok r
    else .ok r

/-- The loop of the case `MsgHeartbeatResp` over the released reads. -/
def releaseRead (r : Raft) (rs : ReadIndexStatus) : Go Raft :=
  let req := rs.req
  if req.fromID = noneID ∨ req.fromID = r.id then
    match req.entries with
    | [] => .error .indexOutOfRange
    | e :: _ =>
      .ok { r with readStates := r.readStates ++ [{ index := rs.index, requestCtx := e.data }] }
  else
    .ok (r.send { toID := req.fromID, type := .msgReadIndexResp, logIndex := rs.index,
                  entries := req.entries })

/-- The case `MsgHeartbeatResp` of `stepLeader`. -/
def handleHeartbeatResp (r : Raft) (m : Message) : Go Raft :=
  if r.readOnly.readIndexQueue.length = 0 then .ok r
  else
    let (readOnly, acks) := r.readOnly.recvAck m.context m.fromID
    let r := { r with readOnly }
    if acks.card < r.quorum then .ok r
    else do
      let (readOnly, rss) ← r.readOnly.advance m.context
      rss.foldlM releaseRead { r with readOnly }

def stepLeader (r : Raft) (m : Message) : Go Raft :=
  match m.type with
  | .msgBeat => r.broadcastHeartbeat
  | .msgProp => r.handleProp m
  | .msgReadIndex => r.handleReadIndex m
  | type =>
    match r.prs.lookup m.fromID with
    | none => .ok r
    | some pr =>
      match type with
      | .msgAppResp => r.handleAppResp m pr
      | .msgHeartbeatResp => r.handleHeartbeatResp m
      | _ => .ok r

/-! ## `Step` -/

/-- The case `MsgHup` of `Step`. -/
def handleHup (r : Raft) : Go Raft :=
  if r.state = .leader then .ok r
  else if !r.promotable r.id then .ok r
  else do
    let entries ← r.raftLog.slice (r.raftLog.applyIndex + 1) (r.raftLog.commitIndex + 1)
    if numOfPendingConf entries > 0 then .ok r
    else if r.preVote then r.campaign .preElection
    else r.campaign .election

/-- The case `MsgVote, MsgPreVote` of `Step`. -/
def handleVote (r : Raft) (m : Message) : Go Raft := do
  let upToDate ← r.raftLog.isUpToDate m.logIndex m.logTerm
  if upToDate && (r.vote = noneID || m.term > r.term || m.fromID = r.vote) then
    if m.type = .msgVote then
      .ok ({ r with vote := m.fromID }.send { type := .msgVoteResp, toID := m.fromID })
    else .ok (r.send { type := .msgPreVoteResp, toID := m.fromID })
  else if m.type = .msgVote then
    .ok (r.send { type := .msgVoteResp, toID := m.fromID, reject := true })
  else .ok (r.send { type := .msgPreVoteResp, toID := m.fromID, reject := true })

/-- The second switch of `Step`, on the type of the message. -/
def stepType (r : Raft) (m : Message) : Go Raft :=
  match m.type with
  | .msgHup => r.handleHup
  | .msgVote => r.handleVote m
  | .msgPreVote => r.handleVote m
  | _ =>
    match r.stepFunc with
    | .stepFollower => r.stepFollower m
    | .stepCandidate => r.stepCandidate m
    | .stepLeader => r.stepLeader m

/-- What `Step` does first with a message of a higher term. -/
def observeTerm (r : Raft) (m : Message) : Raft :=
  let lead := if m.type = .msgVote ∨ m.type = .msgPreVote then noneID else m.fromID
  if m.type ≠ .msgPreVote ∧ (m.type ≠ .msgPreVoteResp ∨ m.reject) then
    r.becomeFollower m.term lead
  else r

/-- `Step(m)`; its error is always `nil`. -/
def step (r : Raft) (m : Message) : Go Raft :=
  if m.term = 0 then r.stepType m
  else if m.term > r.term then (r.observeTerm m).stepType m
  else if m.term < r.term then
    if r.checkQuorum ∧ (m.type = .msgHeartbeat ∨ m.type = .msgApp) then
      .ok (r.send { toID := m.fromID, type := .msgAppResp })
    else .ok r
  else r.stepType m

/-! ## Ticks -/

def tickElection (r : Raft) : Go Raft :=
  let r := { r with electionElapsed := r.electionElapsed + 1 }
  if r.promotable r.id && r.pastElectionTimeout then
    { r with electionElapsed := 0 }.step { fromID := r.id, type := .msgHup }
  else .ok r

def tickHeartbeat (r : Raft) : Go Raft :=
  if r.state ≠ .leader then .ok r
  else
    let r := { r with heartbeatElapsed := r.heartbeatElapsed + 1 }
    if r.heartbeatElapsed ≥ r.heartbeatTimeout then
      { r with heartbeatElapsed := 0 }.step { fromID := r.id, type := .msgBeat }
    else .ok r

/-- The call `r.tick()`. -/
def tick (r : Raft) : Go Raft :=
  match r.tickFunc with
  | .tickElection => r.tickElection
  | .tickHeartbeat => r.tickHeartbeat

/-! ## Membership -/

def addNode (r : Raft) (id : ℕ) : Raft :=
  if id ∈ r.prs then r
  else { r with prs := r.prs.insert id { matchIndex := 0, next := r.raftLog.lastIndex + 1 } }

def removeNode (r : Raft) (id : ℕ) : Raft :=
  if id ∉ r.prs then r
  else
    let r := { r with prs := r.prs.erase id }
    if id = r.id then r.becomeFollower r.term noneID else r

/-- `applyConfChange(cc)`; the returned list of nodes is not modelled. -/
def applyConfChange (r : Raft) (cc : ConfChange) : Raft :=
  let r :=
    if cc.nodeID ≠ noneID then
      match cc.type with
      | .addNode => r.addNode cc.nodeID
      | .removeNode => r.removeNode cc.nodeID
      | .updateNode => r.addNode cc.nodeID
    else r
  { r with pendingConf := false }

end Raft

/-! ## Start -/

/-- `Config`. -/
structure Config where
  id : ℕ
  peers : List ℕ := []
  storage : MemoryStorage
  applied : ℕ := 0
  preVote : Bool := false
  electionTick : Int32 := 0
  heartbeatTick : Int32 := 0

/-- `newRaft(conf)`, where `rand` are the numbers its calls of `rand.Intn` will draw.
`InitialState` of `MemoryStorage` has no error and an empty `ConfState`. -/
def newRaft (conf : Config) (rand : ℕ → ℕ) : Go Raft := do
  let hs := conf.storage.hardState
  let raftLog ← (RaftLog.new conf.storage).appliedTo conf.applied
  let raftLog :=
    if hs.commitIndex > raftLog.commitIndex then { raftLog with commitIndex := hs.commitIndex }
    else raftLog
  let r : Raft := {
    id := conf.id
    lead := noneID
    raftLog := raftLog
    electionTimeout := conf.electionTick
    heartbeatTimeout := conf.heartbeatTick
    preVote := conf.preVote
    prs := conf.peers.foldl (fun prs peer => prs.insert peer { next := 1 }) ∅
    rand := rand }
  let term := if hs.term = 0 then 1 else hs.term
  .ok (r.becomeFollower term noneID)

end Yukino.Replica
