import Mathlib
import Yukino.Lib.LinkedRing
import Yukino.Lib.MachineInt

set_option autoImplicit false

/-!
# The two-level LRU store of `libs/yukino_cache`

`cache` is an LRU cache in arrays: slots with entries, and a table of links that keeps the
slots in the order of their use. An entry whose `expireAt` is not positive is dead, and its
slot is used again. `lruStore` has two caches for every bucket: `Set` writes to the first one,
and `Get` moves what it finds there to the second one.

## Main definitions

* `Lru` with `put`, `del`, `drop`, `peek`, `evictOldest`, `walk`, `adjust` — the type `cache`.
* `LruStore` with `get`, `setWithExpiration`, `delete`, `clear`, `cleanup`.
* `LruStore.Op`, `LruStore.run` — sequences of calls.

## Design

The slices `doubleLink` and `m` are tables with a length, and an index beyond it is a `Fault`.
`make([][2]uint16, cap+1)` adds in `uint16`, so the table of links of a cache with 65535 slots
is empty; likewise there is no bucket if the mask is 65535. A loop over the links has a bound
on its rounds, and running out of it is a `Fault` too. `onEvicted` is the list of its calls.
The results of `put`, which no caller reads, are left out. The range over a Go map has any
order, which is a parameter of `clear` and `cleanup`. `Value` is an interface: `none` is `nil`.
-/

namespace Yukino.Caches

open MachineInt LinkedRing

/-- What stops a call. -/
inductive Fault
  | indexOutOfRange
  | divideByZero
  /-- The bound on the rounds of a loop is used up. -/
  | rounds
  deriving DecidableEq, Repr

/-- A slice of links, `doubleLink`. -/
structure LinkTable where
  size : ℕ
  link : Links ℕ := fun _ _ => 0

namespace LinkTable

def get (d : LinkTable) (i : ℕ) (f : Dir) : Except Fault ℕ :=
  if i < d.size then .ok (d.link f i) else .error .indexOutOfRange

def set (d : LinkTable) (i : ℕ) (f : Dir) (v : ℕ) : Except Fault LinkTable :=
  if i < d.size then .ok { d with link := setLink d.link f i v } else .error .indexOutOfRange

/-- `adjust(idx, f, t)`, where `f` is the opposite direction of `t`: the slot `idx` becomes the
first one in the direction `t`. -/
def adjust (d : LinkTable) (idx : ℕ) (f t : Dir) : Except Fault LinkTable := do
  if (← d.get idx f) ≠ 0 then
    let d ← d.set (← d.get idx t) f (← d.get idx f)
    let d ← d.set (← d.get idx f) t (← d.get idx t)
    let d ← d.set idx f 0
    let d ← d.set idx t (← d.get 0 t)
    let d ← d.set (← d.get 0 t) f idx
    d.set 0 t idx
  else .ok d

end LinkTable

variable {ν : Type}

/-- `node`. -/
structure Slot (ν : Type) where
  k : String := ""
  v : Option ν := none
  expireAt : ℤ := 0

/-- `cache`. -/
structure Lru (ν : Type) where
  doubleLink : LinkTable
  m : List (Slot ν)
  hashMap : AList (fun _ : String => ℕ) := ∅
  bytes : ℤ := 0
  nevict : ℤ := 0
  last : ℕ := 0

/-- `Value.Len()`: an `int`, and as a length not negative. -/
class HasLen (ν : Type) where
  len : ν → ℕ

/-- `ByteView`. -/
structure ByteView where
  b : List UInt8
  deriving DecidableEq, Repr

instance : HasLen ByteView where
  len v := v.b.length

/-- A call of `onEvicted`. -/
abbrev Evicted (ν : Type) := String × Option ν

/-- `entryBytes(key, val)`. -/
def entryBytes [HasLen ν] (key : String) (val : Option ν) : ℤ :=
  match val with
  | none => int64 key.utf8ByteSize
  | some v => int64 (int64 key.utf8ByteSize + int64 (HasLen.len v))

namespace Lru

/-- `Create(cap)`. -/
def create (ν : Type) (cap : UInt16) : Lru ν :=
  { doubleLink := { size := (cap + 1).toNat }, m := List.replicate cap.toNat {} }

/-- `c.m[idx-1]`. For `idx = 0` the index is 65535, and no slice is that long. -/
def slot (c : Lru ν) (idx : ℕ) : Except Fault (Slot ν) :=
  match idx with
  | 0 => .error .indexOutOfRange
  | i + 1 =>
    match c.m[i]? with
    | some nd => .ok nd
    | none => .error .indexOutOfRange

/-- A write to `c.m[idx-1]`. -/
def setSlot (c : Lru ν) (idx : ℕ) (nd : Slot ν) : Lru ν := { c with m := c.m.set (idx - 1) nd }

def adjust (c : Lru ν) (idx : ℕ) (f t : Dir) : Except Fault (Lru ν) := do
  .ok { c with doubleLink := ← c.doubleLink.adjust idx f t }

section

variable [HasLen ν]

/-- `put` for a key that has a slot. -/
def overwrite (c : Lru ν) (idx : ℕ) (key : String) (val : Option ν) (expireAt : ℤ) :
    Except Fault (Lru ν) := do
  let nd ← c.slot idx
  let bytes :=
    if 0 < nd.expireAt then int64 (c.bytes + int64 (entryBytes key val - entryBytes nd.k nd.v))
    else int64 (c.bytes + entryBytes key val)
  let c := { c with bytes := bytes }.setSlot idx { nd with v := val, expireAt := expireAt }
  c.adjust idx .prev .next

/-- `put` for a new key when every slot is in use: the key takes the last one. -/
def replaceTail (c : Lru ν) (key : String) (val : Option ν) (expireAt : ℤ) :
    Except Fault (Lru ν × List (Evicted ν)) := do
  let idx ← c.doubleLink.get 0 .prev
  let tail ← c.slot idx
  let (c, evicted) :=
    if 0 < tail.expireAt then
      ({ c with
          bytes := int64 (c.bytes - entryBytes tail.k tail.v)
          nevict := int64 (c.nevict + 1) }, [(tail.k, tail.v)])
    else (c, [])
  let c := { c with
    bytes := int64 (c.bytes + entryBytes key val)
    hashMap := (c.hashMap.erase tail.k).insert key idx }
  let c := c.setSlot idx { k := key, v := val, expireAt := expireAt }
  let c ← c.adjust (← c.doubleLink.get 0 .prev) .prev .next
  .ok (c, evicted)

/-- The link from the slot that was the first one, or from the sentinel, to the new slot. -/
def linkBack (c : Lru ν) (last : ℕ) : Except Fault LinkTable :=
  if c.hashMap.keys = [] then c.doubleLink.set 0 .prev last
  else do c.doubleLink.set (← c.doubleLink.get 0 .next) .prev last

/-- `put` for a new key when there is a slot that was never used. -/
def append (c : Lru ν) (key : String) (val : Option ν) (expireAt : ℤ) : Except Fault (Lru ν) := do
  let last := c.last + 1
  let d ← c.linkBack last
  let _ ← c.slot last
  let c := c.setSlot last { k := key, v := val, expireAt := expireAt }
  let head ← d.get 0 .next
  let d ← d.set last .prev 0
  let d ← d.set last .next head
  let d ← d.set 0 .next last
  .ok { c with
    doubleLink := d
    last := last
    hashMap := c.hashMap.insert key last
    bytes := int64 (c.bytes + entryBytes key val) }

/-- `put(key, val, expireAt, onEvicted)`. -/
def put (c : Lru ν) (key : String) (val : Option ν) (expireAt : ℤ) :
    Except Fault (Lru ν × List (Evicted ν)) :=
  match c.hashMap.lookup key with
  | some idx => do .ok (← c.overwrite idx key val expireAt, [])
  | none =>
    if c.last = c.m.length then c.replaceTail key val expireAt
    else do .ok (← c.append key val expireAt, [])

/-- `peek(key)`, with the slot and its index. -/
def peek (c : Lru ν) (key : String) : Except Fault (Option (Slot ν × ℕ)) :=
  match c.hashMap.lookup key with
  | some idx => do .ok (some (← c.slot idx, idx))
  | none => .ok none

/-- The slot `idx` dies: its bytes are given back and it goes to the end. -/
def kill (c : Lru ν) (idx : ℕ) (nd : Slot ν) : Except Fault (Lru ν) :=
  ({ c with bytes := int64 (c.bytes - entryBytes nd.k nd.v) }.setSlot idx
    { nd with expireAt := 0 }).adjust idx .next .prev

/-- `del(key)`, with the index of the slot that has died and the slot as it was. -/
def del (c : Lru ν) (key : String) : Except Fault (Lru ν × Option (ℕ × Slot ν)) :=
  match c.hashMap.lookup key with
  | some idx => do
    let nd ← c.slot idx
    if 0 < nd.expireAt then .ok (← c.kill idx nd, some (idx, nd))
    else .ok (c, none)
  | none => .ok (c, none)

/-- `nd.v = nil` for the slot that `del` has returned. -/
def forget (c : Lru ν) (found : Option (ℕ × Slot ν)) : Lru ν :=
  match found with
  | some (idx, nd) => c.setSlot idx { nd with expireAt := 0, v := none }
  | none => c

/-- `drop(key)`. -/
def drop (c : Lru ν) (key : String) : Except Fault (Lru ν) := do
  let (c, found) ← c.del key
  .ok (c.forget found)

/-- The loop of `evictOldest` from the slot `idx` on. -/
def evictFrom (c : Lru ν) : ℕ → ℕ → Except Fault (Lru ν × Bool × List (Evicted ν))
  | 0, _ => .error .rounds
  | _ + 1, 0 => .ok (c, false, [])
  | rounds + 1, idx => do
    let nd ← c.slot idx
    if nd.expireAt ≤ 0 then c.evictFrom rounds (← c.doubleLink.get idx .prev)
    else
      let c := { c with
        bytes := int64 (c.bytes - entryBytes nd.k nd.v)
        nevict := int64 (c.nevict + 1) }
      let c := c.setSlot idx { nd with expireAt := 0, v := none }
      let c ← c.adjust idx .next .prev
      .ok (c, true, [(nd.k, nd.v)])

/-- `evictOldest(onEvicted)`. -/
def evictOldest (c : Lru ν) : Except Fault (Lru ν × Bool × List (Evicted ν)) := do
  c.evictFrom (c.m.length + 1) (← c.doubleLink.get 0 .prev)

end

/-- The loop of `walk` from the slot `idx` on. -/
def walkFrom (c : Lru ν) : ℕ → ℕ → Except Fault (List (Slot ν))
  | 0, _ => .error .rounds
  | _ + 1, 0 => .ok []
  | rounds + 1, idx => do
    let nd ← c.slot idx
    let rest ← c.walkFrom rounds (← c.doubleLink.get idx .next)
    .ok (if 0 < nd.expireAt then nd :: rest else rest)

/-- `walk(walker)` for a walker that never stops: the slots it is called for. -/
def walk (c : Lru ν) : Except Fault (List (Slot ν)) := do
  c.walkFrom (c.m.length + 1) (← c.doubleLink.get 0 .next)

end Lru

/-! ## The store -/

/-- `HashBKRD(s)`. -/
def hashBKRD (s : String) : ℤ :=
  s.toUTF8.toList.foldl (fun hash b => int32 (int32 (hash * 131) + b.toNat)) 0

/-- `MaskOfNextPowOf2(cap)`. -/
def maskOfNextPowOf2 (cap : UInt16) : UInt16 :=
  if 0 < cap ∧ cap &&& (cap - 1) = 0 then cap - 1
  else
    let cap := cap ||| cap >>> 1
    let cap := cap ||| cap >>> 2
    let cap := cap ||| cap >>> 4
    cap ||| cap >>> 8

/-- The fields of `StoreOptions` that the operations depend on. -/
structure StoreOptions where
  /-- An `int64`. -/
  maxBytes : ℤ
  bucketCount : UInt16
  capPerBucket : UInt16
  level2Cap : UInt16

/-- `lruStore`. -/
structure LruStore (ν : Type) where
  caches : List (Lru ν × Lru ν)
  maxBucketBytes : ℤ
  mask : ℕ

/-- `math.MaxInt64`. -/
def maxExpireAt : ℤ := 2 ^ 63 - 1

/-- `NewStore(opts)`. -/
def newStore (ν : Type) (opts : StoreOptions) : Except Fault (LruStore ν) :=
  let bucketCount := if opts.bucketCount = 0 then 16 else opts.bucketCount
  let capPerBucket := if opts.capPerBucket = 0 then 512 else opts.capPerBucket
  let level2Cap := if opts.level2Cap = 0 then 256 else opts.level2Cap
  let mask := maskOfNextPowOf2 bucketCount
  let buckets := (mask + 1).toNat
  if 0 < opts.maxBytes ∧ buckets = 0 then .error .divideByZero
  else
    let maxBucketBytes : ℤ :=
      if 0 < opts.maxBytes then
        if opts.maxBytes / buckets ≤ 0 then 1 else opts.maxBytes / buckets
      else 0
    .ok
      { caches := List.replicate buckets (Lru.create ν capPerBucket, Lru.create ν level2Cap)
        maxBucketBytes := maxBucketBytes
        mask := mask.toNat }

/-- The order in which a `range` over a map goes through its keys. -/
structure MapOrder where
  order : List String → List String
  perm : ∀ l, (order l).Perm l

namespace LruStore

/-- `HashBKRD(key) & s.mask`. -/
def idx (s : LruStore ν) (key : String) : ℕ := (hashBKRD key % 2 ^ 32).toNat &&& s.mask

/-- `s.caches[idx]`. -/
def bucket (s : LruStore ν) (idx : ℕ) : Except Fault (Lru ν × Lru ν) :=
  match s.caches[idx]? with
  | some b => .ok b
  | none => .error .indexOutOfRange

def setBucket (s : LruStore ν) (idx : ℕ) (b : Lru ν × Lru ν) : LruStore ν :=
  { s with caches := s.caches.set idx b }

variable [HasLen ν]

/-- `Get` on the two caches of a bucket, at the instant `currentTime`. -/
def getBucket (b : Lru ν × Lru ν) (key : String) (currentTime : ℤ) :
    Except Fault ((Lru ν × Lru ν) × Option (Option ν) × List (Evicted ν)) := do
  let (c₀, found) ← b.1.del key
  match found with
  | some (idx, nd) =>
    let c₀ := c₀.forget (some (idx, nd))
    if nd.expireAt ≤ currentTime then
      let c₁ ← b.2.drop key
      .ok ((c₀, c₁), none, [(key, nd.v)])
    else
      let (c₁, evicted) ← b.2.put key nd.v nd.expireAt
      .ok ((c₀, c₁), some nd.v, evicted)
  | none =>
    match ← b.2.peek key with
    | none => .ok ((c₀, b.2), none, [])
    | some (nd, idx) =>
      if 0 < nd.expireAt then
        if nd.expireAt ≤ currentTime then
          let c₁ ← b.2.drop key
          .ok ((c₀, c₁), none, [(key, nd.v)])
        else
          let c₁ ← b.2.adjust idx .prev .next
          .ok ((c₀, c₁), some nd.v, [])
      else .ok ((c₀, b.2), none, [])

/-- `evictFromBucket`. -/
def evictFromBucket (b : Lru ν × Lru ν) :
    Except Fault ((Lru ν × Lru ν) × Bool × List (Evicted ν)) := do
  let (c₀, done, evicted) ← b.1.evictOldest
  if done then .ok ((c₀, b.2), true, evicted)
  else
    let (c₁, done, evicted) ← b.2.evictOldest
    .ok ((c₀, c₁), done, evicted)

/-- The loop of `SetWithExpiration` that brings a bucket into its budget. -/
def shrink (maxBucketBytes : ℤ) (b : Lru ν × Lru ν) :
    ℕ → Except Fault ((Lru ν × Lru ν) × List (Evicted ν))
  | 0 => .error .rounds
  | rounds + 1 =>
    if maxBucketBytes < int64 (b.1.bytes + b.2.bytes) then do
      let (b, done, evicted) ← evictFromBucket b
      if done then
        let (b, evicted') ← shrink maxBucketBytes b rounds
        .ok (b, evicted ++ evicted')
      else .ok (b, evicted)
    else .ok (b, [])

/-- `expireAt` in `SetWithExpiration`, at the instant `now`. -/
def expiry (expiration now : ℤ) : ℤ :=
  if 0 < expiration then int64 (now + expiration) else maxExpireAt

/-- `SetWithExpiration` on the two caches of a bucket. -/
def setBucketEntry (maxBucketBytes : ℤ) (b : Lru ν × Lru ν) (key : String) (value : Option ν)
    (expireAt : ℤ) : Except Fault ((Lru ν × Lru ν) × List (Evicted ν)) := do
  let (c₀, evicted) ← b.1.put key value expireAt
  let c₁ ← b.2.drop key
  if 0 < maxBucketBytes then
    let (b, evicted') ← shrink maxBucketBytes (c₀, c₁) (c₀.m.length + c₁.m.length + 1)
    .ok (b, evicted ++ evicted')
  else .ok ((c₀, c₁), evicted)

/-- `delete(key, idx)` on the two caches of a bucket. -/
def deleteEntry (b : Lru ν × Lru ν) (key : String) :
    Except Fault ((Lru ν × Lru ν) × Bool × List (Evicted ν)) := do
  let (c₀, n₁) ← b.1.del key
  let (c₁, n₂) ← b.2.del key
  let v₁ := n₁.bind fun n => n.2.v
  let v₂ := n₂.bind fun n => n.2.v
  let evicted :=
    match v₁, v₂ with
    | some v, _ => [(key, some v)]
    | none, some v => [(key, some v)]
    | none, none => []
  .ok ((c₀.forget n₁, c₁.forget n₂), n₁.isSome || n₂.isSome, evicted)

/-- `delete` for every key of a list. -/
def deleteKeys (b : Lru ν × Lru ν) : List String →
    Except Fault ((Lru ν × Lru ν) × List (Evicted ν))
  | [] => .ok (b, [])
  | key :: keys => do
    let (b, _, evicted) ← deleteEntry b key
    let (b, evicted') ← deleteKeys b keys
    .ok (b, evicted ++ evicted')

/-- A pass over a bucket that deletes the keys of the entries that `p` holds for. -/
def sweepBucket (order : MapOrder) (p : Slot ν → Bool) (b : Lru ν × Lru ν) :
    Except Fault ((Lru ν × Lru ν) × List (Evicted ν)) := do
  let slots₀ ← b.1.walk
  let slots₁ ← b.2.walk
  let keys := (((slots₀ ++ slots₁).filter p).map Slot.k).dedup
  deleteKeys b (order.order keys)

/-- A pass over all buckets. -/
def sweep (order : MapOrder) (p : Slot ν → Bool) : List (Lru ν × Lru ν) →
    Except Fault (List (Lru ν × Lru ν) × List (Evicted ν))
  | [] => .ok ([], [])
  | b :: bs => do
    let (b, evicted) ← sweepBucket order p b
    let (bs, evicted') ← sweep order p bs
    .ok (b :: bs, evicted ++ evicted')

/-- `Get(key)` at the instant `now`, with the value that it returns. -/
def get (s : LruStore ν) (key : String) (now : ℤ) :
    Except Fault (LruStore ν × Option (Option ν) × List (Evicted ν)) := do
  let (b, value, evicted) ← getBucket (← s.bucket (s.idx key)) key now
  .ok (s.setBucket (s.idx key) b, value, evicted)

/-- `SetWithExpiration(key, value, expiration)` at the instant `now`. -/
def setWithExpiration (s : LruStore ν) (key : String) (value : Option ν) (expiration now : ℤ) :
    Except Fault (LruStore ν × List (Evicted ν)) := do
  let (b, evicted) ← setBucketEntry s.maxBucketBytes (← s.bucket (s.idx key)) key value
    (expiry expiration now)
  .ok (s.setBucket (s.idx key) b, evicted)

/-- `Set(key, value)`. -/
def set (s : LruStore ν) (key : String) (value : Option ν) (now : ℤ) :
    Except Fault (LruStore ν × List (Evicted ν)) :=
  s.setWithExpiration key value 0 now

/-- `Delete(key)`. -/
def delete (s : LruStore ν) (key : String) :
    Except Fault (LruStore ν × Bool × List (Evicted ν)) := do
  let (b, deleted, evicted) ← deleteEntry (← s.bucket (s.idx key)) key
  .ok (s.setBucket (s.idx key) b, deleted, evicted)

/-- `Clear()`. -/
def clear (s : LruStore ν) (order : MapOrder) : Except Fault (LruStore ν × List (Evicted ν)) := do
  let (caches, evicted) ← sweep order (fun _ => true) s.caches
  .ok ({ s with caches := caches }, evicted)

/-- A round of `cleanupLoop` at the instant `currentTime`. -/
def cleanup (s : LruStore ν) (order : MapOrder) (currentTime : ℤ) :
    Except Fault (LruStore ν × List (Evicted ν)) := do
  let (caches, evicted) ← sweep order (fun nd => nd.expireAt ≤ currentTime) s.caches
  .ok ({ s with caches := caches }, evicted)

/-- A call, with the reading of the clock that it sees. -/
inductive Op (ν : Type)
  | set (key : String) (value : Option ν) (now : ℤ)
  | setWithExpiration (key : String) (value : Option ν) (expiration now : ℤ)
  | get (key : String) (now : ℤ)
  | delete (key : String)
  | clear (order : MapOrder)
  | cleanup (order : MapOrder) (now : ℤ)

def step (s : LruStore ν) : Op ν → Except Fault (LruStore ν)
  | .set key value now => do .ok (← s.set key value now).1
  | .setWithExpiration key value expiration now => do
    .ok (← s.setWithExpiration key value expiration now).1
  | .get key now => do .ok (← s.get key now).1
  | .delete key => do .ok (← s.delete key).1
  | .clear order => do .ok (← s.clear order).1
  | .cleanup order now => do .ok (← s.cleanup order now).1

/-- A sequence of calls that all return. -/
def run (s : LruStore ν) : List (Op ν) → Except Fault (LruStore ν)
  | [] => .ok s
  | op :: ops => do (← s.step op).run ops

end LruStore

end Yukino.Caches
