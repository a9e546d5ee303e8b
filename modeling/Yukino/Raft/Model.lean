import Mathlib

set_option autoImplicit false

/-!
# The data model of the Raft component (`model.go`, `progress.go`, `read.go`, `storage.go`)

The records that the Raft nodes of `components/raft/raft` keep and exchange, the in-memory
storage behind a node's log, the per-peer progress and the queue of pending reads.

## Main definitions

* `Go` — a Go call that returns a value or panics.
* `Entry`, `Message`, `HardState` — the records of `model.go`.
* `MemoryStorage` — the storage of `storage.go`, whose first entry is a dummy.
* `Progress`, `ReadOnly` — `progress.go` and `read.go`.

## Design

Terms, indices and node ids are `uint64` in the source and natural numbers here: none of
them can be driven to `2^64` by a run of realistic length. Where the source relies on
unsigned subtraction the wrap-around of `0 - 1` is written out. Byte slices and strings are
lists of bytes (a `nil` slice is the empty list), Go maps are association lists without
repeated keys. The iteration order of a Go map is unspecified; here it is the order of the
list, and it only decides the order in which messages are put into `msgs`.
-/

namespace Yukino.Replica

/-- The two errors of `storage.go`. -/
inductive StorageErr
  | compacted
  | unavailable
  deriving DecidableEq, Repr

/-- What stops a goroutine: an explicit `panic(text)`, a `panic(err)` with a storage error,
an index outside a slice, or a nil pointer. -/
inductive Panic
  | raised (text : String)
  | storage (err : StorageErr)
  | indexOutOfRange
  | nilPointer
  deriving DecidableEq, Repr

/-- A Go call: it returns a value or panics. -/
abbrev Go := Except Panic

/-- The slice expression `xs[lo:hi]`. -/
def goSlice {α : Type} (xs : List α) (lo hi : ℕ) : Go (List α) :=
  if lo ≤ hi ∧ hi ≤ xs.length then .ok ((xs.drop lo).take (hi - lo))
  else .error .indexOutOfRange

/-- `[]byte` and `string`. -/
abbrev Bytes := List UInt8

/-- `None`: the id of no node. -/
abbrev noneID : ℕ := 0

inductive EntryType
  | normal
  | confChange
  deriving DecidableEq, Repr

structure Entry where
  term : ℕ := 0
  index : ℕ := 0
  type : EntryType := .normal
  data : Bytes := []
  deriving DecidableEq, Repr

inductive MessageType
  | msgHup
  | msgBeat
  | msgProp
  | msgApp
  | msgAppResp
  | msgVote
  | msgVoteResp
  | msgHeartbeat
  | msgHeartbeatResp
  | msgReadIndex
  | msgReadIndexResp
  | msgPreVote
  | msgPreVoteResp
  deriving DecidableEq, Repr

structure Message where
  type : MessageType
  toID : ℕ := 0
  fromID : ℕ := 0
  term : ℕ := 0
  logTerm : ℕ := 0
  logIndex : ℕ := 0
  entries : List Entry := []
  commitIndex : ℕ := 0
  reject : Bool := false
  rejectHint : ℕ := 0
  context : Bytes := []
  deriving DecidableEq, Repr

inductive StateType
  | follower
  | candidate
  | leader
  | preCandidate
  deriving DecidableEq, Repr

structure SoftState where
  lead : ℕ
  raftState : StateType
  deriving DecidableEq, Repr

structure HardState where
  term : ℕ := 0
  vote : ℕ := 0
  commitIndex : ℕ := 0
  deriving DecidableEq, Repr

/-- `emptyHardState`, the zero value. -/
def emptyHardState : HardState := {}

/-- `IsEmptyHardState` of `ready.go`. -/
def isEmptyHardState (h : HardState) : Bool := h = emptyHardState

inductive CampaignType
  | preElection
  | election
  deriving DecidableEq, Repr

inductive ConfChangeType
  | addNode
  | removeNode
  | updateNode
  deriving DecidableEq, Repr

/-- `ConfChange`, without the `ID` and `Context` that no modelled function reads. -/
structure ConfChange where
  type : ConfChangeType
  nodeID : ℕ
  deriving DecidableEq, Repr

/-- `numOfPendingConf` of `util.go`. -/
def numOfPendingConf (entries : List Entry) : ℕ :=
  entries.countP fun ent => ent.type = .confChange

/-! ## `storage.go` -/

/-- `MemoryStorage`: the entries start with a dummy, so the slice is never empty. -/
structure MemoryStorage where
  hardState : HardState := {}
  entries : List Entry
  entries_ne : entries ≠ []

namespace MemoryStorage

/-- `NewMemoryStorage`: one zero entry. -/
def new : MemoryStorage where
  entries := [{}]
  entries_ne := by simp

/-- The index `m.entries[0].Index` of the dummy entry. -/
def offset (m : MemoryStorage) : ℕ := (m.entries.head m.entries_ne).index

def lastIndex (m : MemoryStorage) : ℕ := m.offset + m.entries.length - 1

def firstIndex (m : MemoryStorage) : ℕ := m.offset + 1

/-- `Entries(l, r)`. The two kinds of failure are the returned error and the panic of the
slice expression. -/
def slice (m : MemoryStorage) (l r : ℕ) : Go (Except StorageErr (List Entry)) :=
  if l ≤ m.offset then .ok (.error .compacted)
  else if r > m.lastIndex + 1 then .ok (.error .unavailable)
  else if m.entries.length = 1 then .ok (.error .unavailable)
  else (goSlice m.entries (l - m.offset) (r - m.offset)).map .ok

/-- `Term(i)`. -/
def term (m : MemoryStorage) (i : ℕ) : Except StorageErr ℕ :=
  if i < m.offset then .error .compacted
  else match m.entries[i - m.offset]? with
    | none => .error .unavailable
    | some e => .ok e.term

/-- `Append(entries)`: cut at the first new index, then append. -/
def append (m : MemoryStorage) (entries : List Entry) : Except StorageErr MemoryStorage :=
  match entries with
  | [] => .ok m
  | e :: es =>
    if e.index < m.offset then .ok m
    else if e.index > m.lastIndex + 1 then .error .unavailable
    else .ok { m with
      entries := m.entries.take (e.index - m.offset) ++ e :: es
      entries_ne := by simp }

def setHardState (m : MemoryStorage) (hs : HardState) : MemoryStorage :=
  { m with hardState := hs }

end MemoryStorage

/-! ## `progress.go` -/

/-- `Progress`, without the `State` that no modelled function reads. -/
structure Progress where
  matchIndex : ℕ := 0
  next : ℕ := 0
  deriving DecidableEq, Repr

namespace Progress

/-- `maybeUpdate(n)`, with its result `updated`. -/
def maybeUpdate (pr : Progress) (n : ℕ) : Progress × Bool :=
  let updated := decide (pr.matchIndex < n)
  ({ matchIndex := if pr.matchIndex < n then n else pr.matchIndex
     next := if pr.next < n + 1 then n + 1 else pr.next }, updated)

/-- `mayDecreaseTo(logIndex, rejectHint)`. The source compares `pr.Next-1`, and `Next` is
never `0`; with `Next = 0` the subtraction wraps around and no index equals it. -/
def mayDecreaseTo (pr : Progress) (logIndex rejectHint : ℕ) : Progress × Bool :=
  if pr.next = 0 ∨ pr.next - 1 ≠ logIndex then (pr, false)
  else
    let next := min logIndex (rejectHint + 1)
    ({ pr with next := if next < 1 then 1 else next }, true)

end Progress

/-! ## `read.go` -/

structure ReadState where
  index : ℕ
  requestCtx : Bytes
  deriving DecidableEq, Repr

structure ReadIndexStatus where
  req : Message
  index : ℕ
  acks : Finset ℕ := ∅
  deriving DecidableEq

/-- `readOnly`: the pending reads by context, and the contexts in order of arrival. -/
structure ReadOnly where
  pendingReadIndex : AList (fun _ : Bytes => ReadIndexStatus) := ∅
  readIndexQueue : List Bytes := []

namespace ReadOnly

def addRequest (ro : ReadOnly) (ctx : Bytes) (readIndex : ℕ) (m : Message) :
    ReadOnly × Bool :=
  if ctx ∈ ro.pendingReadIndex then (ro, false)
  else
    ({ pendingReadIndex := ro.pendingReadIndex.insert ctx { req := m, index := readIndex }
       readIndexQueue := ro.readIndexQueue ++ [ctx] }, true)

/-- `recvAck(ctx, from)`; an unknown context has the empty set of acknowledgements. -/
def recvAck (ro : ReadOnly) (ctx : Bytes) (fromID : ℕ) : ReadOnly × Finset ℕ :=
  match ro.pendingReadIndex.lookup ctx with
  | none => (ro, ∅)
  | some rs =>
    let acks := insert fromID rs.acks
    ({ ro with pendingReadIndex := ro.pendingReadIndex.insert ctx { rs with acks } }, acks)

/-- The first loop of `advance(ctx)`: the statuses of the queued contexts up to and
including `ctx`, and whether `ctx` was found. -/
def collect (pending : AList (fun _ : Bytes => ReadIndexStatus)) (ctx : Bytes) :
    List Bytes → Go (List ReadIndexStatus × Bool)
  | [] => .ok ([], false)
  | queued :: rest =>
    match pending.lookup queued with
    | none => .error (.raised "cannot find corresponding read state from pending map")
    | some rs =>
      if queued = ctx then .ok ([rs], true)
      else do
        let (rss, found) ← collect pending ctx rest
        .ok (rs :: rss, found)

/-- The second loop of `advance(ctx)`: forget the released requests. -/
def release (pending : AList (fun _ : Bytes => ReadIndexStatus)) :
    List ReadIndexStatus → Go (AList (fun _ : Bytes => ReadIndexStatus))
  | [] => .ok pending
  | rs :: rss =>
    match rs.req.entries with
    | [] => .error .indexOutOfRange
    | e :: _ => release (pending.erase e.data) rss

def advance (ro : ReadOnly) (ctx : Bytes) : Go (ReadOnly × List ReadIndexStatus) := do
  let (rss, found) ← collect ro.pendingReadIndex ctx ro.readIndexQueue
  if found then
    let pending ← release ro.pendingReadIndex rss
    .ok ({ pendingReadIndex := pending
           readIndexQueue := ro.readIndexQueue.drop rss.length }, rss)
  else .ok (ro, [])

end ReadOnly

end Yukino.Replica
