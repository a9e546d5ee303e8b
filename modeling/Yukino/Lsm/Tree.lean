import Yukino.Lib.Runs
import Yukino.Lsm.Sst

set_option autoImplicit false

/-!
# The LSM tree of `components/lsm_tree`

Pairs are put into a memtable and its log. A full memtable becomes read-only, is written to a
table of level 0, and the tables of a level that is too large are merged into the next level.

## Main definitions

* `MemTable` — a sorted map with its size.
* `Tree`, with `put`, `get`, `compactMemTable` and `compactLevel`.
* `Tree.Event`, `Tree.step`, `Tree.run` — the interleavings of
  calls of `Put` with the steps in the background.

## Design

The goroutines that wait to send a memtable or a level to the compaction loop are the lists
`memCompactC` and `levelCompactC`; the loop may receive from any of them. A step in the
background is taken as a whole, as `Get` is asked between two steps. The tree records the
operations it makes on files in the order in which it makes them.

A memtable is the bottom level of the skip list, whose towers only shorten the search. Node
pointers are compared in `removeNodes`; here nodes are the same if they have the same level and
sequence number. Sequence numbers are not bounded (`int32` in the source): they are right below
`2^31` tables of a level. `uint64(math.Pow10(level))` is `10^level` up to level 19, where it fits.
-/

namespace Yukino.Lsm

open MachineInt
open SortedAssoc (Ascending)

/-! ## Memtables -/

structure MemTable where
  entries : List KV := []
  size : ℤ := 0
  ascending : Ascending entries := by exact List.Pairwise.nil

namespace MemTable

def get (m : MemTable) (key : Bytes) : Option Bytes :=
  m.entries.lookup key

def put (m : MemTable) (key value : Bytes) : MemTable where
  entries := SortedAssoc.put key value m.entries
  size := match m.get key with
    | some old => int64 (m.size + (value.length - old.length))
    | none => int64 (m.size + (key.length + value.length))
  ascending := m.ascending.put

/-- `All`, in ascending order of the keys. -/
def all (m : MemTable) : List KV :=
  m.entries

/-- Pairs put one after another. -/
def putAll (m : MemTable) (kvs : List KV) : MemTable :=
  kvs.foldl (fun m kv => m.put kv.1 kv.2) m

end MemTable

/-! ## Trees -/

/-- An operation on the files of a tree. -/
inductive FileOp
  | createTable (level seq : ℕ)
  | writeTable (level seq : ℕ) (bytes : Bytes)
  | removeTable (level seq : ℕ)
  | createLog (index : ℕ)
  | writeLog (index : ℕ) (bytes : Bytes)
  | removeLog (index : ℕ)

/-- `memTableCompactItem`; its log is known by the index in its name. -/
structure MemTableCompactItem where
  walFile : ℕ
  memTable : MemTable

structure Tree where
  memTable : MemTable := {}
  /-- The oldest first. -/
  rOnlyMemTable : List MemTableCompactItem := []
  nodes : ℕ → List Node := fun _ => []
  levelToSeq : ℕ → ℕ := fun _ => 0
  memTableIndex : ℕ := 0
  /-- The memtables that goroutines wait to send. -/
  memCompactC : List MemTableCompactItem := []
  /-- The levels that goroutines wait to send. -/
  levelCompactC : List ℕ := []
  /-- What the goroutines of `removeNodes` have left to destroy, by level and number. -/
  destroying : List (List (ℕ × ℕ)) := []
  /-- The operations on files so far. -/
  ops : List FileOp := []

namespace Tree

variable (conf : Config)

def record (t : Tree) (ops : List FileOp) : Tree :=
  { t with ops := t.ops ++ ops }

/-! ### Reading -/

/-- The search among the nodes from `start` up to, but without, `stop`. -/
def levelBinarySearch (nodes : List Node) (key : Bytes) : ℕ → ℕ → ℕ → Option Node
  | 0, _, _ => none
  | rounds + 1, start, stop =>
    if stop ≤ start then none else
    let mid := start + (stop - 1 - start) / 2
    match nodes[mid]? with
    | none => none
    | some node =>
      if node.endKey < key then levelBinarySearch nodes key rounds (mid + 1) stop
      else if key ≤ node.startKey then levelBinarySearch nodes key rounds start mid
      else some node

/-- The first node of a list that has the key. -/
def getFrom (key : Bytes) : List Node → Except Fault (Option Bytes)
  | [] => .ok none
  | node :: nodes => do
    match ← node.get conf key with
    | some value => .ok (some value)
    | none => getFrom key nodes

/-- The value of the key in a level from the first on. -/
def getLevel (nodes : List Node) (key : Bytes) : Except Fault (Option Bytes) :=
  match levelBinarySearch nodes key nodes.length 0 nodes.length with
  | none => .ok none
  | some node => node.get conf key

/-- The value of the key in the first of some levels that has it. -/
def getLevels (t : Tree) (key : Bytes) : List ℕ → Except Fault (Option Bytes)
  | [] => .ok none
  | level :: levels => do
    match ← getLevel conf (t.nodes level) key with
    | some value => .ok (some value)
    | none => getLevels t key levels

def get (t : Tree) (key : Bytes) : Except Fault (Option Bytes) :=
  match t.memTable.get key with
  | some value => .ok (some value)
  | none =>
    match t.rOnlyMemTable.reverse.findSome? (·.memTable.get key) with
    | some value => .ok (some value)
    | none => do
      match ← getFrom conf key (t.nodes 0).reverse with
      | some value => .ok (some value)
      | none => t.getLevels conf key (List.range' 1 (conf.maxLevel - 1))

/-! ### Writing -/

/-- A record of the log. -/
def logRecord (key value : Bytes) : Bytes :=
  Uvarint.put key.length ++ Uvarint.put value.length ++ key ++ value

def newMemTable (t : Tree) : Tree :=
  { t with memTable := {} }.record [.createLog t.memTableIndex]

def refreshMemTableLocked (t : Tree) : Tree :=
  let oldItem : MemTableCompactItem := ⟨t.memTableIndex, t.memTable⟩
  { t with
    rOnlyMemTable := t.rOnlyMemTable ++ [oldItem]
    memCompactC := t.memCompactC ++ [oldItem]
    memTableIndex := t.memTableIndex + 1 }.newMemTable

/-- `uint64(size*5/4)`. -/
def loadOf (size : ℤ) : ℕ :=
  (((int64 (size * 5)).tdiv 4) % 2 ^ 64).toNat

def put (t : Tree) (key value : Bytes) : Tree :=
  let t := { t with memTable := t.memTable.put key value }.record
    [.writeLog t.memTableIndex (logRecord key value)]
  if loadOf t.memTable.size ≤ conf.sstSize then t else t.refreshMemTableLocked

/-! ### Tables -/

/-- The loop of `insertNodeWithReader` from the second node on. -/
def insertBehind (newNode : Node) : List Node → List Node
  | [] => [newNode]
  | node :: nodes =>
    if newNode.endKey < node.startKey then newNode :: node :: nodes
    else node :: insertBehind newNode nodes

/-- Where `insertNodeWithReader` puts a node: at the end of level 0, and in another level behind
the first node at least. -/
def insertIn (level : ℕ) (newNode : Node) (nodes : List Node) : List Node :=
  if level = 0 then nodes ++ [newNode] else
  match nodes with
  | [] => [newNode]
  | node :: nodes => node :: insertBehind newNode nodes

def insertNode (t : Tree) (node : Node) : Tree :=
  { t with
    levelToSeq := Function.update t.levelToSeq node.level node.seq
    nodes := Function.update t.nodes node.level
      (insertIn node.level node (t.nodes node.level)) }

def createTable (t : Tree) (level seq : ℕ) : Tree :=
  t.record [.createTable level seq]

/-- The writes of `Finish`, and the new node. -/
def finishTable (t : Tree) (level seq : ℕ) (w : SSTWriter) : Tree :=
  let finished := w.finish conf
  let t := t.record (finished.writes.map (.writeTable level seq))
  match newNode finished.writes.flatten level seq finished.size finished.blockToFilter
    finished.index with
  | .ok node => t.insertNode node
  | .error _ => t

/-- The size from which on a level is compacted, in `uint64`. -/
def levelLimit (level : ℕ) : ℕ :=
  conf.sstSize * 10 ^ level % 2 ^ 64 * conf.sstNumPerLevel % 2 ^ 64

def tryTriggerCompact (t : Tree) (level : ℕ) : Tree :=
  if level + 1 = conf.maxLevel then t else
  let size := ((t.nodes level).map (·.size)).sum % 2 ^ 64
  if size ≤ levelLimit conf level then t
  else { t with levelCompactC := t.levelCompactC ++ [level] }

def flushMemTable (t : Tree) (memTable : MemTable) : Tree :=
  let seq := t.levelToSeq 0 + 1
  let t := t.createTable 0 seq
  let t := t.finishTable conf 0 seq (SSTWriter.appendAll conf {} memTable.all)
  t.tryTriggerCompact conf 0

/-- `compactMemTable`: the memtable and all before it leave the read-only ones. -/
def compactMemTable (t : Tree) (item : MemTableCompactItem) : Tree :=
  let t := t.flushMemTable conf item.memTable
  let t := match t.rOnlyMemTable.findIdx? (·.walFile = item.walFile) with
    | none => t
    | some i => { t with rOnlyMemTable := t.rOnlyMemTable.drop (i + 1) }
  t.record [.removeLog item.walFile]

/-! ### Compacting a level -/

/-- The keys between which nodes are picked: those of the first node and of the middle one. -/
def pickRange (nodes : List Node) (first : Node) : Bytes × Bytes :=
  let mid := (nodes[nodes.length / 2]?).getD first
  (if mid.startKey < first.startKey then mid.startKey else first.startKey,
    if first.endKey < mid.endKey then mid.endKey else first.endKey)

/-- Whether a node meets the keys from `startKey` to `endKey`. -/
def meets (range : Bytes × Bytes) (node : Node) : Bool :=
  !(range.2 < node.startKey || node.endKey < range.1)

/-- The nodes of the next level come first. -/
def pickCompactNodes (t : Tree) (level : ℕ) : List Node :=
  match t.nodes level with
  | [] => []
  | first :: _ =>
    let range := pickRange (t.nodes level) first
    (t.nodes (level + 1)).filter (meets range) ++ (t.nodes level).filter (meets range)

/-- The pairs of a node, none if it cannot be read. -/
def pairs (node : Node) : List KV :=
  match node.getAll with
  | .ok kvs => kvs
  | .error _ => []

def pickedNodesToKVs (pickedNodes : List Node) : List KV :=
  (pickedNodes.foldl (fun (m : MemTable) node => m.putAll (pairs node)) {}).all

/-- Before a pair is appended: a table that is over the limit is finished, and the next one is
begun. -/
def rollTable (level limit : ℕ) (w : SSTWriter) (seq : ℕ) (t : Tree) : SSTWriter × ℕ × Tree :=
  if w.size > limit then
    let t := t.finishTable conf level seq w
    let seq := t.levelToSeq level + 1
    ({}, seq, t.createTable level seq)
  else (w, seq, t)

/-- The loop of `compactLevel` over the pairs, for tables of `level`. -/
def compactLoop (level limit : ℕ) : List KV → SSTWriter → ℕ → Tree → Tree
  | [], _, _, t => t
  | kv :: kvs, w, seq, t =>
    let (w, seq, t) := rollTable conf level limit w seq t
    let w := w.append conf kv.1 kv.2
    if kvs = [] then t.finishTable conf level seq w
    else compactLoop level limit kvs w seq t

def sameNode (a b : Node) : Bool :=
  a.level = b.level && a.seq = b.seq

def removeNodes (t : Tree) (level : ℕ) (nodes : List Node) : Tree :=
  let keep := fun ns : List Node => ns.filter fun n => !nodes.any (sameNode n)
  { t with
    nodes := Function.update (Function.update t.nodes (level + 1) (keep (t.nodes (level + 1))))
      level (keep (t.nodes level))
    destroying := t.destroying ++ [nodes.map fun n => (n.level, n.seq)] }

/-- The size of a table of a level, in `uint64`. -/
def sstLimit (level : ℕ) : ℕ :=
  conf.sstSize * 10 ^ level % 2 ^ 64

def compactLevel (t : Tree) (level : ℕ) : Tree :=
  if t.nodes level = [] then t else
  let pickedNodes := t.pickCompactNodes level
  let seq := t.levelToSeq (level + 1) + 1
  let t' := t.createTable (level + 1) seq
  let t' := compactLoop conf (level + 1) (sstLimit conf (level + 1))
    (pickedNodesToKVs pickedNodes) {} seq t'
  (t'.removeNodes level pickedNodes).tryTriggerCompact conf (level + 1)

/-! ### Interleavings -/

/-- A call of `Put`, or a step in the background. -/
inductive Event
  | put (key value : Bytes)
  /-- The compaction loop receives the memtable with this log. -/
  | compactMemTable (walFile : ℕ)
  /-- The compaction loop receives this level. -/
  | compactLevel (level : ℕ)
  /-- One of the goroutines of `removeNodes` destroys its next node. -/
  | destroy (i : ℕ)
  deriving DecidableEq

def destroyNext (t : Tree) (i : ℕ) : Option Tree :=
  match t.destroying[i]? with
  | some ((level, seq) :: rest) =>
    some ({ t with destroying := t.destroying.set i rest }.record [.removeTable level seq])
  | _ => none

/-- The step that an event is, if it can be taken. -/
def step (t : Tree) : Event → Option Tree
  | .put key value => some (t.put conf key value)
  | .compactMemTable walFile =>
    match t.memCompactC.find? (·.walFile = walFile) with
    | none => none
    | some item => some ({ t with
        memCompactC := t.memCompactC.eraseP (·.walFile = walFile) }.compactMemTable conf item)
  | .compactLevel level =>
    if level ∈ t.levelCompactC then
      some ({ t with levelCompactC := t.levelCompactC.erase level }.compactLevel conf level)
    else none
  | .destroy i => t.destroyNext i

def run (t : Tree) (es : List Event) : Option Tree :=
  Runs.run (step conf) t es

/-- What an event puts for a key. -/
def putsFor (key : Bytes) (v : Option Bytes) : Event → Option Bytes
  | .put k value => if k = key then some value else v
  | _ => v

/-- The value of the latest `Put` of a key. -/
def latest (key : Bytes) (es : List Event) : Option Bytes :=
  es.foldl (putsFor key) none

/-- `NewTree` on an empty directory. -/
def new : Tree :=
  ({} : Tree).newMemTable

end Tree

end Yukino.Lsm
