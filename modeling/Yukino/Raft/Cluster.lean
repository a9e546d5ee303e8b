import Yukino.Raft.Node

set_option autoImplicit false

/-!
# Clusters of Raft nodes and their runs

A cluster is a set of running nodes with the messages they have handed out. A run is a
list of events: calls of the embedding application, ticks, the exchange of `Ready` and
`Advance`, and the delivery of messages.

## Main definitions

* `Cluster`, `Event` — the state and the events.
* `ClusterConfig` — the nodes and the arguments of their `StartNode`.
* `ClusterConfig.step`, `ClusterConfig.run`, `ClusterConfig.exec` — one event, a list of events, a
  run from the start.
* `FixedCluster` — a cluster all of whose nodes were started with the set of all nodes as peers.

## Design

`net` holds every message that was ever handed out in a `Ready`, and a delivery takes any
of them and leaves it there. So messages may be delayed, reordered, duplicated, and lost
(never delivered). A message that is handed out but not in `net` cannot be delivered, and
an event for a node or a message that does not exist changes nothing. A panic of one node
ends the run: what the other nodes can do without it, they can also do in a run in which
the panicking event does not happen.
-/

namespace Yukino.Replica

structure Cluster where
  nodes : AList (fun _ : ℕ => Node) := ∅
  /-- All messages handed out so far. -/
  net : List Message := []
  /-- The membership changes applied so far, as pairs of a node and a log index. -/
  confs : List (ℕ × ℕ) := []

inductive Event
  /-- `Tick`. -/
  | tick (i : ℕ)
  /-- `Campaign`. -/
  | campaign (i : ℕ)
  /-- `Propose`. -/
  | propose (i : ℕ) (data : Bytes)
  /-- `ProposeConfChange`, where `data` is the change in JSON. -/
  | proposeConfChange (i : ℕ) (data : Bytes)
  /-- `ReadIndex`. -/
  | readIndex (i : ℕ) (rctx : Bytes)
  /-- The application reads from `Ready()`. -/
  | ready (i : ℕ)
  /-- `Advance`. -/
  | advance (i : ℕ)
  /-- The transport puts a message on the `recvChan` of its addressee. -/
  | deliver (m : Message)
  /-- The transport passes a message to `Node.step` of its addressee. -/
  | deliverStep (m : Message)
  /-- `ApplyConfChange` for the delivered entry with the given index. -/
  | applyConfChange (i index : ℕ) (cc : ConfChange)
  /-- The node stops and is started again by `StartNode` on its storage. -/
  | restart (i applied : ℕ) (rand : ℕ → ℕ)

namespace Event

/-- The events of a run with fixed membership and without restarts. -/
def isFixed : Event → Bool
  | applyConfChange .. => false
  | restart .. => false
  | _ => true

/-- The events of a run without restarts. -/
def isRestart : Event → Bool
  | restart .. => true
  | _ => false

end Event

/-- The nodes of a cluster and the arguments with which they are started. -/
structure ClusterConfig where
  ids : List ℕ
  peers : ℕ → List ℕ
  preVote : ℕ → Bool := fun _ => false
  electionTick : ℕ → Int32 := fun _ => 10
  heartbeatTick : ℕ → Int32 := fun _ => 1
  /-- The numbers drawn by `rand.Intn` in each node. -/
  rand : ℕ → ℕ → ℕ := fun _ _ => 0

namespace Cluster

/-- The index of the last membership change that node `i` has applied. -/
def confIndex (s : Cluster) (i : ℕ) : ℕ :=
  ((s.confs.filter fun c => c.1 = i).map Prod.snd).foldr max 0

/-- Node `i` is leader of the given term. -/
def Leads (s : Cluster) (i term : ℕ) : Prop :=
  ∃ n, s.nodes.lookup i = some n ∧ n.raft.state = .leader ∧ n.raft.term = term

/-- One round of node `i`. What it hands out goes to the network. -/
def input (s : Cluster) (i : ℕ) (inp : Input) : Go Cluster :=
  match s.nodes.lookup i with
  | none => .ok s
  | some n => do
    let n' ← n.handle inp
    let sent := (n'.handed.drop n.handed.length).flatMap Ready.message
    .ok { s with nodes := s.nodes.insert i n', net := s.net ++ sent }

/-- Whether node `i` was handed out a membership change at `index` that it may apply now:
changes are applied in the order of their indices. -/
def mayApply (s : Cluster) (i index : ℕ) : Bool :=
  match s.nodes.lookup i with
  | none => false
  | some n =>
    n.delivered.any (fun e => e.index = index ∧ e.type = .confChange) &&
      s.confIndex i < index

end Cluster

namespace ClusterConfig

/-- The configuration of node `i` on the given storage. -/
def config (c : ClusterConfig) (i : ℕ) (storage : MemoryStorage) (applied : ℕ) : Config where
  id := i
  storage := storage
  applied := applied
  preVote := c.preVote i
  electionTick := c.electionTick i
  heartbeatTick := c.heartbeatTick i

/-- `StartNode` for node `i` on fresh storage. -/
def startFresh (c : ClusterConfig) (i : ℕ) : Go Node :=
  startNode (c.config i MemoryStorage.new 0) (c.peers i) (c.rand i)

/-- All nodes are started on fresh storage. -/
def start (c : ClusterConfig) : Go Cluster :=
  c.ids.foldlM (fun s i => do
    let n ← c.startFresh i
    .ok { s with nodes := s.nodes.insert i n }) {}

/-- The node may stop and start again: an `Advance` has saved a hard state. A `Ready` may be
outstanding. -/
def mayStop (n : Node) : Bool :=
  !isEmptyHardState n.raft.raftLog.storage.hardState

/-- The cluster after node `i` was started again on its storage. -/
def restart (c : ClusterConfig) (s : Cluster) (i applied : ℕ) (rand : ℕ → ℕ) : Go Cluster :=
  match s.nodes.lookup i with
  | none => .ok s
  | some n =>
    if mayStop n then do
      let n' ← startNode (c.config i n.raft.raftLog.storage applied) (c.peers i) rand
      .ok { s with nodes := s.nodes.insert i n' }
    else .ok s

def step (c : ClusterConfig) (s : Cluster) : Event → Go Cluster
  | .tick i => s.input i .tick
  | .campaign i => s.input i (.ofMessage campaignMsg)
  | .propose i data => s.input i (.ofMessage (proposeMsg data))
  | .proposeConfChange i data => s.input i (.ofMessage (proposeConfChangeMsg data))
  | .readIndex i rctx => s.input i (.ofMessage (readIndexMsg rctx))
  | .ready i => s.input i .ready
  | .advance i => s.input i .advance
  | .deliver m => if m ∈ s.net then s.input m.toID (.recv m) else .ok s
  | .deliverStep m => if m ∈ s.net then s.input m.toID (.ofMessage m) else .ok s
  | .applyConfChange i index cc =>
    if s.mayApply i index then do
      let s' ← s.input i (.conf cc)
      .ok { s' with confs := s'.confs ++ [(i, index)] }
    else .ok s
  | .restart i applied rand => c.restart s i applied rand

/-- A run: the events one after another. -/
def run (c : ClusterConfig) (s : Cluster) (evs : List Event) : Go Cluster :=
  evs.foldlM c.step s

/-- A run from the start. -/
def exec (c : ClusterConfig) (evs : List Event) : Go Cluster := do
  let s ← c.start
  c.run s evs

/-- Whether a condition on events holds at every event of a run. -/
def along (c : ClusterConfig) (ok : Cluster → Event → Bool) : Cluster → List Event → Bool
  | _, [] => true
  | s, ev :: evs =>
    ok s ev && match c.step s ev with
      | .ok s' => c.along ok s' evs
      | .error _ => true

/-- Whether a condition on events holds at every event of a run from the start. -/
def execAlong (c : ClusterConfig) (ok : Cluster → Event → Bool) (evs : List Event) : Bool :=
  match c.start with
  | .ok s => c.along ok s evs
  | .error _ => true

end ClusterConfig

/-- A cluster with fixed membership: all nodes are started with the same set of peers, which
are the nodes of the cluster. The id `None` is no node: the callers number their nodes from
`1` (`proxy.go`) or replace the id `0` (`ledger.go`), and `applyConfChange` ignores it. -/
structure FixedCluster extends ClusterConfig where
  mem_peers_iff : ∀ i ∈ ids, ∀ j, j ∈ peers i ↔ j ∈ ids
  noneID_notMem : noneID ∉ ids

/-- The cluster of the given nodes, with the defaults of `ClusterConfig`. -/
def FixedCluster.ofIds (ids : List ℕ) (h : noneID ∉ ids) : FixedCluster where
  ids := ids
  peers := fun _ => ids
  mem_peers_iff := fun _ _ _ => Iff.rfl
  noneID_notMem := h

/-- The nodes `1`, `1` and `2`, or `1` to `3`. -/
abbrev FixedCluster.solo : FixedCluster := .ofIds [1] (by decide)

abbrev FixedCluster.pair : FixedCluster := .ofIds [1, 2] (by decide)

abbrev FixedCluster.trio : FixedCluster := .ofIds [1, 2, 3] (by decide)

end Yukino.Replica
