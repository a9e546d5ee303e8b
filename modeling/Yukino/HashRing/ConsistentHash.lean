import Yukino.Lib.Fnv
import Yukino.Lib.MachineInt
import Yukino.HashRing.Ring

set_option autoImplicit false

/-!
# `components/consistent_hash`: nodes, data keys and their migration

`ConsistentHash` puts every registered node on the ring under several virtual nodes, finds the
node of a data key and records the key for it. When a node comes or goes, the recorded keys whose
node changes move with it, and the migrator is called for them.

## Main definitions

* `Encryptor` — a hash function with values on the ring.
* `ConsistentHash`, with `addNode`, `removeNode`, `getNode` and the migrations
  `migrateIn` and `migrateOut`.
* `ConsistentHash.run` — sequences of calls.

## Design

A call of the migrator is recorded as a `Migration` in the result: the callback runs in another
goroutine and does not touch the ring. The walk of `getValidNextNode` ends when it comes back to
a score; it is given a bound on its rounds, which it never reaches
(`ConsistentHash.getValidNextNode_ne_rounds`).
-/

namespace Yukino.HashRing

open MachineInt SkiplistHashRing

/-- `Encryptor`, for hash functions with values from `0` to `MaxInt32 - 1`. -/
structure Encryptor where
  encrypt : String → ℤ
  onCircle : ∀ origin, RingWalk.OnCircle maxInt32 (encrypt origin)

/-- `FnvHasher`. -/
def fnvHasher : Encryptor where
  encrypt origin := ((Fnv.sum32 origin.toUTF8.toList).toNat % 2147483647 : ℕ)
  onCircle origin := by
    unfold RingWalk.OnCircle maxInt32
    omega

/-- A call of the migrator. -/
structure Migration where
  fromNode : String := ""
  toNode : String := ""
  dataSet : Finset String := ∅
  deriving DecidableEq

structure ConsistentHashOptions where
  lockExpireSeconds : ℤ := 0
  replicas : ℤ := 0
  deriving DecidableEq, Repr

def repair (opts : ConsistentHashOptions) : ConsistentHashOptions where
  lockExpireSeconds := if opts.lockExpireSeconds ≤ 0 then 15 else opts.lockExpireSeconds
  replicas := if opts.replicas ≤ 0 then 5 else opts.replicas

structure ConsistentHash where
  encryptor : Encryptor
  /-- Whether there is a migrator. -/
  migrator : Bool
  opts : ConsistentHashOptions

def newConsistentHash (encryptor : Encryptor) (migrator : Bool) (opts : ConsistentHashOptions) :
    ConsistentHash where
  encryptor := encryptor
  migrator := migrator
  opts := repair opts

def getValidWeight (weight : ℤ) : ℤ :=
  if weight ≤ 0 then 1 else if weight ≥ 10 then 10 else weight

/-- `fmt.Sprintf("%s_%d", nodeID, index)`. -/
def getRawNodeKey (nodeID : String) (index : ℕ) : String :=
  nodeID ++ "_" ++ toString index

/-- The text up to the last underscore. -/
def getNodeID (rawNodeKey : String) : String :=
  if '_' ∈ rawNodeKey.toList then
    String.ofList (rawNodeKey.toList.reverse.dropWhile (· ≠ '_')).tail.reverse
  else rawNodeKey

def incrScore (score : ℤ) : ℤ :=
  if score = maxInt32 - 1 then 0 else int32 (score + 1)

def decreaseScore (score : ℤ) : ℤ :=
  if score = 0 then maxInt32 - 1 else int32 (score - 1)

namespace ConsistentHash

variable (c : ConsistentHash)

/-- The test of `migrateIn` for the score of a data key of the next node. -/
def migratesIn (lastScore virtualScore nextScore dataScore : ℤ) : Bool :=
  let patternOne : Bool := lastScore > virtualScore
  let patternTwo : Bool := nextScore < virtualScore
  let lastScore := if patternOne then int32 (lastScore - maxInt32) else lastScore
  let (virtualScore, lastScore) :=
    if patternTwo then (int32 (virtualScore - maxInt32), int32 (lastScore - maxInt32))
    else (virtualScore, lastScore)
  let dataVirtualScore :=
    if patternOne && dataScore > int32 (lastScore + maxInt32) then int32 (dataScore - maxInt32)
    else dataScore
  let dataVirtualScore :=
    if patternTwo then int32 (dataVirtualScore - maxInt32) else dataVirtualScore
  !(dataVirtualScore ≤ lastScore || dataVirtualScore > virtualScore)

/-- The test of `migrateOut` for the score of a data key of the leaving node. -/
def migratesOut (lastScore virtualScore dataScore : ℤ) : Bool :=
  let pattern : Bool := lastScore > virtualScore
  let lastScore := if pattern then int32 (lastScore - maxInt32) else lastScore
  let dataScore :=
    if pattern && dataScore > int32 (lastScore + maxInt32) then int32 (dataScore - maxInt32)
    else dataScore
  !(dataScore ≤ lastScore || dataScore > virtualScore)

/-- The data keys of `dataSet` recorded for another node. -/
def moveDataKeys (fromNode toNode : String) (dataSet : Finset String) : RingM Unit :=
  modify fun s => (s.deleteNodeToDataKeys fromNode dataSet).addNodeToDataKeys toNode dataSet

def migrateIn (virtualScore : ℤ) (nodeID : String) : RingM Migration := do
  if !c.migrator then return {} else
  let nodes ← node virtualScore
  if nodes.length > 1 then return {} else
  let lastScore := (← EStateM.get).floor (decreaseScore virtualScore)
  if lastScore = -1 || lastScore = virtualScore then return {} else
  let nextScore := (← EStateM.get).ceiling (incrScore virtualScore)
  if nextScore = -1 || nextScore = virtualScore then return {} else
  match ← node nextScore with
  | [] => return {}
  | next :: _ =>
    let dataSet := ((← EStateM.get).dataKeys (getNodeID next)).filter fun dataKey =>
      migratesIn lastScore virtualScore nextScore (c.encryptor.encrypt dataKey)
    moveDataKeys (getNodeID next) nodeID dataSet
    return ⟨getNodeID next, nodeID, dataSet⟩

/-- The first node behind `score` that can take the data of `nodeID`, `""` if the walk comes back
to a score in `ranged`. -/
def getValidNextNode (nodeID : String) : ℕ → ℤ → Finset ℤ → RingM String
  | 0, _, _ => throw .rounds
  | rounds + 1, score, ranged => do
    let nextScore := (← EStateM.get).ceiling (incrScore score)
    if nextScore = -1 || nextScore ∈ ranged then return "" else
    match ← node nextScore with
    | [] => throw (.error "next node empty")
    | next :: others =>
      if getNodeID next ≠ nodeID then return getNodeID next else
      match others with
      | other :: _ => return getNodeID other
      | [] => getValidNextNode nodeID rounds nextScore (insert score ranged)

/-- The node that takes the data of `nodeID` at `virtualScore`, where `others` are the ids behind
the first one there. -/
def heirAt (virtualScore : ℤ) (nodeID : String) (others : List String) : RingM String := do
  match others with
  | other :: _ => return getNodeID other
  | [] =>
    let rounds := (← EStateM.get).virtualNodes.keys.length + 1
    let toNode ← getValidNextNode nodeID rounds virtualScore ∅
    if toNode = "" then throw (.error "no other node") else return toNode

def migrateOut (virtualScore : ℤ) (nodeID : String) : RingM Migration := do
  if !c.migrator then return {} else
  match ← node virtualScore with
  | [] => return ⟨nodeID, "", ∅⟩
  | first :: others =>
    if getNodeID first ≠ nodeID then return ⟨nodeID, "", ∅⟩ else
    let allDataSet := (← EStateM.get).dataKeys nodeID
    if allDataSet = ∅ then return ⟨nodeID, "", ∅⟩ else
    let lastScore := (← EStateM.get).floor (decreaseScore virtualScore)
    let onlyScore : Bool := lastScore = -1 || lastScore = virtualScore
    if onlyScore && others.isEmpty then throw (.error "no other no") else
    let dataSet := allDataSet.filter fun dataKey =>
      onlyScore || migratesOut lastScore virtualScore (c.encryptor.encrypt dataKey)
    let toNode ← heirAt virtualScore nodeID others
    if toNode = "" || dataSet = ∅ then return ⟨nodeID, toNode, dataSet⟩ else
    moveDataKeys nodeID toNode dataSet
    return ⟨nodeID, toNode, dataSet⟩

/-- The loop of `AddNode` over the replicas. -/
def addReplicas (nodeID : String) : List ℕ → RingM (List Migration)
  | [] => return []
  | i :: is => do
    let nodeKey := getRawNodeKey nodeID i
    let virtualScore := c.encryptor.encrypt nodeKey
    modify (·.add virtualScore nodeKey)
    let migration ← c.migrateIn virtualScore nodeID
    let migrateTasks ← addReplicas nodeID is
    return if migration.dataSet = ∅ then migrateTasks else migration :: migrateTasks

def addNode (nodeID : String) (weight : ℤ) : RingM (List Migration) := do
  if nodeID ∈ (← EStateM.get).nodeToReplicas then throw (.error "repeat node") else
  let replicas := int64 (getValidWeight weight * c.opts.replicas)
  modify (·.addNodeToReplica nodeID replicas)
  c.addReplicas nodeID (List.range replicas.toNat)

/-- The loop of `RemoveNode` over the replicas. -/
def removeReplicas (nodeID : String) : List ℕ → RingM (List Migration)
  | [] => return []
  | i :: is => do
    let nodeKey := getRawNodeKey nodeID i
    let virtualScore := c.encryptor.encrypt nodeKey
    let migration ← c.migrateOut virtualScore nodeID
    rem virtualScore nodeKey
    let migrateTasks ← removeReplicas nodeID is
    return if migration.dataSet = ∅ then migrateTasks else migration :: migrateTasks

def removeNode (nodeID : String) : RingM (List Migration) := do
  match (← EStateM.get).nodeToReplicas.lookup nodeID with
  | none => throw (.error "invalid node id")
  | some replicas =>
    modify (·.deleteNodeToReplica nodeID)
    c.removeReplicas nodeID (List.range replicas.toNat)

def getNode (dataKey : String) : RingM String := do
  let ceilingScore := (← EStateM.get).ceiling (c.encryptor.encrypt dataKey)
  if ceilingScore = -1 then throw (.error "no node available") else
  match ← node ceilingScore with
  | [] => throw (.error "no node available with empty score")
  | first :: _ =>
    modify (·.addNodeToDataKeys (getNodeID first) {dataKey})
    return getNodeID first

/-! ## Sequences of calls -/

/-- A call. -/
inductive Call
  | addNode (nodeID : String) (weight : ℤ)
  | removeNode (nodeID : String)
  | getNode (dataKey : String)
  deriving DecidableEq, Repr

def call : Call → RingM Unit
  | .addNode nodeID weight => do let _ ← c.addNode nodeID weight
  | .removeNode nodeID => do let _ ← c.removeNode nodeID
  | .getNode dataKey => do let _ ← c.getNode dataKey

/-- Calls one after another, up to the first that fails. -/
def run : List Call → RingM Unit
  | [] => return ()
  | op :: ops => do
    c.call op
    run ops

/-- A call of `RemoveNode` finds no other node with an empty id, and none whose id is the raw key
of a virtual node of the one it removes. -/
def Call.undisturbed (s : SkiplistHashRing) : Call → Bool
  | .addNode _ _ => true
  | .getNode _ => true
  | .removeNode nodeID =>
    let replicas := ((s.nodeToReplicas.lookup nodeID).getD 0).toNat
    s.nodeToReplicas.keys.all fun m =>
      m = nodeID || (m ≠ "" && (List.range replicas).all fun i => m ≠ getRawNodeKey nodeID i)

/-- Every call is undisturbed when it is made. -/
def undisturbed : List Call → SkiplistHashRing → Bool
  | [], _ => true
  | op :: ops, s =>
    op.undisturbed s && match c.call op s with
      | .ok _ s' => undisturbed ops s'
      | .error _ _ => true

end ConsistentHash

end Yukino.HashRing
