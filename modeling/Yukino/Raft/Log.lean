import Yukino.Raft.Model

set_option autoImplicit false

/-!
# The log of a Raft node (`log.go`)

A node's log is split between its storage and the entries that are not yet stable:
the log consists of the stored entries below `unstable.offset`, followed by
`unstable.entries`.

## Main definitions

* `Unstable`, `RaftLog` — the two records of `log.go` with their methods.
* `RaftLog.abs` — the log they represent, as a list whose element at position `i` is the entry with
  index `i + 1`.

## Design

`MemoryStorage` returns no error from `FirstIndex` and `LastIndex`, and its `Term` returns
no other error than the two that `raftLog.term` handles, so the methods that only panic on
other errors (`firstIndex`, `lastIndex`, `term`) are total here.
-/

namespace Yukino.Replica

/-- `unstable`: the entries from index `offset` on that are not in the storage yet. -/
structure Unstable where
  entries : List Entry := []
  offset : ℕ
  deriving DecidableEq, Repr

namespace Unstable

def mustCheckOutOfBounds (u : Unstable) (l r : ℕ) : Go Unit :=
  if l > r then .error (.raised "invalid unstable slice")
  else if l < u.offset ∨ r > u.offset + u.entries.length then
    .error (.raised "invalid unstable slice")
  else .ok ()

def slice (u : Unstable) (l r : ℕ) : Go (List Entry) := do
  u.mustCheckOutOfBounds l r
  goSlice u.entries (l - u.offset) (r - u.offset)

def truncateAndAppend (u : Unstable) (entries : List Entry) : Go Unstable :=
  match entries with
  | [] => .error .indexOutOfRange
  | e :: _ =>
    let after := e.index
    if after = u.offset + u.entries.length then
      .ok { u with entries := u.entries ++ entries }
    else if after ≤ u.offset then
      .ok { offset := after, entries := entries }
    else do
      let kept ← u.slice u.offset after
      .ok { u with entries := kept ++ entries }

/-- `maybeLastIndex()`, with `none` for the result `(0, false)`. -/
def maybeLastIndex (u : Unstable) : Option ℕ :=
  if u.entries.length ≠ 0 then some (u.offset + u.entries.length - 1) else none

/-- `maybeTerm(i)`, with `none` for the result `(0, false)`. -/
def maybeTerm (u : Unstable) (i : ℕ) : Option ℕ :=
  if i < u.offset then none
  else match u.maybeLastIndex with
    | none => none
    | some last =>
      if i > last then none else u.entries[i - u.offset]?.map Entry.term

def stableTo (u : Unstable) (i t : ℕ) : Unstable :=
  match u.maybeTerm i with
  | none => u
  | some gt =>
    if t = gt ∧ i ≥ u.offset then
      { entries := u.entries.drop (i - u.offset + 1), offset := i + 1 }
    else u

end Unstable

structure RaftLog where
  storage : MemoryStorage
  unstable : Unstable
  commitIndex : ℕ
  applyIndex : ℕ

namespace RaftLog

/-- The represented log: the stored entries below `unstable.offset`, then the unstable
ones. The dummy at index `0` is left out. -/
def abs (l : RaftLog) : List Entry :=
  (l.storage.entries.tail).take (l.unstable.offset - 1) ++ l.unstable.entries

/-- `newRaftLog(storage)`. -/
def new (storage : MemoryStorage) : RaftLog where
  storage := storage
  unstable := { offset := storage.lastIndex + 1 }
  commitIndex := storage.firstIndex - 1
  applyIndex := storage.firstIndex - 1

def stableTo (l : RaftLog) (i t : ℕ) : RaftLog :=
  { l with unstable := l.unstable.stableTo i t }

def unstableEntries (l : RaftLog) : List Entry := l.unstable.entries

def firstIndex (l : RaftLog) : ℕ := l.storage.firstIndex

def lastIndex (l : RaftLog) : ℕ :=
  match l.unstable.maybeLastIndex with
  | some i => i
  | none => l.storage.lastIndex

def mustCheckOutOfBounds (l : RaftLog) (lo hi : ℕ) : Go Unit :=
  if lo > hi then .error (.raised "invalid raft log index")
  else if lo < l.firstIndex then .error (.raised "invalid raft log index")
  else if hi > l.lastIndex + 1 then .error (.raised "invalid raft log index")
  else .ok ()

/-- The part of `slice(lo, hi)` that is read from the storage; an error of the storage
panics. -/
def stableSlice (l : RaftLog) (lo hi : ℕ) : Go (List Entry) :=
  if lo < l.unstable.offset then do
    match ← l.storage.slice lo (min l.unstable.offset hi) with
    | .ok stable => .ok stable
    | .error err => .error (.storage err)
  else .ok []

/-- The part of `slice(lo, hi)` that is read from the unstable entries. -/
def unstableSlice (l : RaftLog) (lo hi : ℕ) : Go (List Entry) :=
  if hi > l.unstable.offset then l.unstable.slice (max lo l.unstable.offset) hi else .ok []

def slice (l : RaftLog) (lo hi : ℕ) : Go (List Entry) := do
  l.mustCheckOutOfBounds lo hi
  if lo = hi then .ok []
  else
    let stable ← l.stableSlice lo hi
    let unstable ← l.unstableSlice lo hi
    .ok (stable ++ unstable)

def nextEntries (l : RaftLog) : Go (List Entry) :=
  let off := max (l.applyIndex + 1) l.firstIndex
  if l.commitIndex + 1 > off then l.slice off (l.commitIndex + 1) else .ok []

/-- `append(entries...)`. The source tests `entries[0].Index - 1 < commitIndex`, where an
index `0` wraps around and passes the test. The returned last index is never used. -/
def append (l : RaftLog) (entries : List Entry) : Go RaftLog :=
  match entries with
  | [] => .ok l
  | e :: _ =>
    if e.index ≠ 0 ∧ e.index - 1 < l.commitIndex then
      .error (.raised "entry index less then commit index")
    else do
      let u ← l.unstable.truncateAndAppend entries
      .ok { l with unstable := u }

/-- `term(i)`: out of range the term is `0` and there is no error. -/
def term (l : RaftLog) (i : ℕ) : Except StorageErr ℕ :=
  let dummyIndex := l.firstIndex - 1
  if i < dummyIndex ∨ i > l.lastIndex then .ok 0
  else match l.unstable.maybeTerm i with
    | some t => if t ≠ 0 then .ok t else l.storage.term i
    | none => l.storage.term i

def lastTerm (l : RaftLog) : Go ℕ :=
  match l.term l.lastIndex with
  | .ok t => .ok t
  | .error err => .error (.storage err)

def isUpToDate (l : RaftLog) (index term : ℕ) : Go Bool := do
  let lastTerm ← l.lastTerm
  .ok (term > lastTerm || (term == lastTerm && index ≥ l.lastIndex))

def appliedTo (l : RaftLog) (i : ℕ) : Go RaftLog :=
  if i = 0 then .ok l
  else if l.commitIndex < i ∨ i < l.applyIndex then .error (.raised "invalid apply index")
  else .ok { l with applyIndex := i }

/-- `entries(i)`: the log from index `i` on. -/
def entriesFrom (l : RaftLog) (i : ℕ) : Go (List Entry) :=
  if i > l.lastIndex then .ok [] else l.slice i (l.lastIndex + 1)

/-- `zeroTermOnErrCompacted(term(i))`. -/
def zeroTermOnErrCompacted (t : Except StorageErr ℕ) : Go ℕ :=
  match t with
  | .ok t => .ok t
  | .error .compacted => .ok 0
  | .error err => .error (.storage err)

def commitTo (l : RaftLog) (toCommit : ℕ) : Go RaftLog :=
  if l.commitIndex ≥ toCommit then .ok l
  else if l.lastIndex < toCommit then .error (.raised "commit index over last index")
  else .ok { l with commitIndex := toCommit }

/-- `maybeCommit(maxIndex, term)`, with its result. The term is only read when the index
is new. -/
def maybeCommit (l : RaftLog) (maxIndex term : ℕ) : Go (RaftLog × Bool) :=
  if maxIndex > l.commitIndex then do
    let t ← zeroTermOnErrCompacted (l.term maxIndex)
    if t = term then
      let l ← l.commitTo maxIndex
      .ok (l, true)
    else .ok (l, false)
  else .ok (l, false)

def matchTerm (l : RaftLog) (logIndex logTerm : ℕ) : Bool :=
  match l.term logIndex with
  | .error _ => false
  | .ok t => t = logTerm

/-- `findConflict(entries)`: the index of the first entry that the log does not have, and
`0` when there is none. -/
def findConflict (l : RaftLog) : List Entry → ℕ
  | [] => 0
  | ent :: rest => if l.matchTerm ent.index ent.term then l.findConflict rest else ent.index

/-- The switch of `maybeAppend`: append the entries from the first conflict on. An offset
below `logIndex + 1` wraps around and is out of range. -/
def appendConflict (l : RaftLog) (logIndex : ℕ) (entries : List Entry) : Go RaftLog :=
  let conflictStart := l.findConflict entries
  if conflictStart = 0 then .ok l
  else if conflictStart ≤ l.commitIndex then
    .error (.raised "conflict before commit index")
  else
    let offset := logIndex + 1
    if conflictStart < offset then .error .indexOutOfRange
    else do
      let fresh ← goSlice entries (conflictStart - offset) entries.length
      l.append fresh

/-- `maybeAppend(logIndex, logTerm, commitIndex, entries...)`: `none` for the result
`(0, false)`. -/
def maybeAppend (l : RaftLog) (logIndex logTerm commitIndex : ℕ) (entries : List Entry) :
    Go (Option (RaftLog × ℕ)) :=
  if l.matchTerm logIndex logTerm then do
    let lastNewI := logIndex + entries.length
    let l ← l.appendConflict logIndex entries
    let l ← l.commitTo (min commitIndex lastNewI)
    .ok (some (l, lastNewI))
  else .ok none

end RaftLog

end Yukino.Replica
