import Yukino.Lib.MachineInt
import Yukino.Lib.Redis
import Yukino.Lib.Runs

set_option autoImplicit false

/-!
# The distributed locks of `components/redis_lock`

A `RedisLock` is a key of one Redis node that holds the token of its owner. A `RedLock` takes such
locks on several nodes, and is held by a client that got more than half of them.

## Main definitions

* `RedisLock`, with `tryLock`, `unlock` and `delayExpire`.
* `RedLock`, `newRedLock`.
* `State`, `Event`, `step` — clients that call
  `Lock` and `Unlock`, one command of one client at a time.

## Design

Each client is a sequence of calls of `Lock` and `Unlock` on its `RedLock`, in any order. A command
to a node is atomic and takes effect during its call; it may also be lost before the node sees it,
or its reply may be lost (`Redis.Fate`). Keys do not expire and nodes do not fail.

A watch dog is a goroutine that leaves some time after its context is cancelled: by `Unlock`, by the
next `Lock`, or by the caller of `Lock`. Until then it may still send its command, also beside a
newer watch dog of the same lock, so the model counts them and lets one leave at any time.

`NewRedLock` makes its locks without `WithBlock`, so `RedisLock.Lock` is one `tryLock`. The
conversion of the expiry to seconds is that of whole numbers.
-/

namespace Yukino.Locks

open MachineInt
open Redis (Fate)

/-! ## Locks on one node -/

structure LockOptions where
  expireSeconds : ℤ := 0
  watchDogMode : Bool := false

/-- `repairLock`: without an expiry, the default one is used and a watch dog renews it. -/
def repairLock (o : LockOptions) : LockOptions :=
  if o.expireSeconds > 0 then o else { o with expireSeconds := 30, watchDogMode := true }

/-- A lock on the node `client`. -/
structure RedisLock (ν : Type) extends LockOptions where
  key : String
  token : String
  client : ν

def newRedisLock {ν : Type} (token key : String) (client : ν) (opts : LockOptions) :
    RedisLock ν :=
  { repairLock opts with key, token, client }

/-- `LuaCheckAndDeleteDistributionLock`. -/
def luaCheckAndDelete (targetToken : String) (s : Redis.Str) : ℤ × Redis.Str :=
  if s.get = some targetToken then s.del else (0, s)

/-- `LuaCheckAndExpireDistributionLock`. -/
def luaCheckAndExpire (targetToken : String) (duration : ℤ) (s : Redis.Str) : ℤ × Redis.Str :=
  if s.get = some targetToken then s.expire duration else (0, s)

/-- `Client.SetNEX`: the reply, if there is no error. -/
def setNEX (key value : String) (expireSeconds : ℤ) (s : Redis.Str) : Option ℤ × Redis.Str :=
  if key = "" ∨ value = "" then (none, s)
  else if expireSeconds ≤ 0 then (none, s)
  else match s.setNX value expireSeconds with
    | (true, s') => (some 1, s')
    | (false, s') => (some 0, s')

/-- `Client.Eval` of a script. -/
def eval (script : Redis.Str → ℤ × Redis.Str) (s : Redis.Str) : Option ℤ × Redis.Str :=
  (some (script s).1, (script s).2)

namespace RedisLock

variable {ν : Type} (l : RedisLock ν) (fate : Fate) (s : Redis.Str)

def getLockKey : String :=
  "REDIS_LOCK_PREFIX_" ++ l.key

/-- Whether the lock was taken, and the key afterwards. -/
def tryLock : Bool × Redis.Str :=
  let (reply, s') := fate.send (setNEX l.getLockKey l.token l.expireSeconds) s
  (reply = some 1, s')

def unlock : Bool × Redis.Str :=
  let (reply, s') := fate.send (eval (luaCheckAndDelete l.token)) s
  (reply = some 1, s')

/-- `DelayExpire`: no reply at all, or whether the lock is still there. -/
def delayExpire (expireSeconds : ℤ) : Option Bool × Redis.Str :=
  let (reply, s') := fate.send (eval (luaCheckAndExpire l.token expireSeconds)) s
  (reply.map (· = 1), s')

end RedisLock

/-! ## Locks on several nodes -/

/-- Durations in nanoseconds. -/
structure RedLockOptions where
  singleNodesTimeout : ℤ := 0
  expireDuration : ℤ := 0

def repairRedLock (o : RedLockOptions) : RedLockOptions :=
  if o.singleNodesTimeout ≤ 0 then { o with singleNodesTimeout := 50000000 } else o

structure RedLock (ν : Type) extends RedLockOptions where
  locks : List (RedisLock ν)

/-- `NewRedLock`, called in a goroutine with the given token. -/
def newRedLock {ν : Type} (token key : String) (confs : List ν) (opts : RedLockOptions) :
    Except String (RedLock ν) :=
  if confs.length < 3 then .error "can not use redLock less than 3 nodes"
  else
    let o := repairRedLock opts
    if o.expireDuration > 0 ∧
        int64 (int64 (confs.length * o.singleNodesTimeout) * 10) > o.expireDuration then
      .error "expire thresholds of single node is too long"
    else .ok { o with
      locks := confs.map fun conf =>
        newRedisLock token key conf { expireSeconds := o.expireDuration.tdiv 1000000000 } }

/-! ## Clients -/

/-- Where a client is. -/
inductive Phase (ν : Type)
  /-- In no call. -/
  | idle
  /-- In the loop of `Lock`, with the locks that are left. -/
  | locking (rest : List (RedisLock ν)) (successCnt : ℕ) (acquired : List (RedisLock ν))
  /-- In the loop of `Lock` that gives back what was acquired. -/
  | rollback (rest : List (RedisLock ν))
  /-- In the loop of `Unlock`. -/
  | unlocking (rest : List (RedisLock ν))

structure State (C ν : Type) where
  /-- The keys of each node. -/
  nodes : ν → String → Redis.Str := fun _ _ => none
  phase : C → Phase ν := fun _ => .idle
  /-- The clients between a successful `Lock` and their `Unlock`. -/
  holds : C → Bool := fun _ => false
  /-- The number of watch dogs, by client and node. -/
  dogs : C → ν → ℕ := fun _ _ => 0

inductive Event (C : Type) (ν : Type)
  /-- A call of `Lock`. -/
  | lock (c : C)
  /-- The next lock in the loop of `Lock`, and what it took. -/
  | tryNext (c : C) (fate : Fate) (cost : ℤ)
  /-- The next lock in the loop of `Unlock`, or among those to give back. -/
  | unlockNext (c : C) (fate : Fate)
  /-- The end of a loop. -/
  | finish (c : C)
  /-- A call of `Unlock`. -/
  | unlock (c : C)
  /-- A command of a watch dog. -/
  | dog (c : C) (i : ν) (fate : Fate)
  /-- A watch dog leaves, since its context is cancelled. -/
  | dogLeaves (c : C) (i : ν)

section Step

variable {C ν : Type} [DecidableEq C] [DecidableEq ν]

namespace State

variable (s : State C ν)

def setPhase (c : C) (phase : Phase ν) : State C ν :=
  { s with phase := Function.update s.phase c phase }

def setKey (i : ν) (key : String) (str : Redis.Str) : State C ν :=
  { s with nodes := Function.update s.nodes i (Function.update (s.nodes i) key str) }

def setHolds (c : C) (b : Bool) : State C ν :=
  { s with holds := Function.update s.holds c b }

def setDogs (c : C) (i : ν) (n : ℕ) : State C ν :=
  { s with dogs := Function.update s.dogs c (Function.update (s.dogs c) i n) }

end State

variable (redLock : C → RedLock ν)

/-- One round of the loop of `RedLock.Lock`. -/
def tryNext (s : State C ν) (c : C) (l : RedisLock ν) (rest : List (RedisLock ν))
    (successCnt : ℕ) (acquired : List (RedisLock ν)) (fate : Fate) (cost : ℤ) : State C ν :=
  let (ok, str) := l.tryLock fate (s.nodes l.client l.getLockKey)
  let s := s.setKey l.client l.getLockKey str
  let s := if ok && l.watchDogMode then s.setDogs c l.client (s.dogs c l.client + 1) else s
  if ok && cost ≤ (redLock c).singleNodesTimeout then
    s.setPhase c (.locking rest (successCnt + 1) (acquired ++ [l]))
  else s.setPhase c (.locking rest successCnt acquired)

/-- `RedisLock.Unlock`, after which both loops go on whatever its error is. -/
def unlockOne (s : State C ν) (l : RedisLock ν) (fate : Fate) : State C ν :=
  let (_, str) := l.unlock fate (s.nodes l.client l.getLockKey)
  s.setKey l.client l.getLockKey str

/-- One round of `runWatchDog`, which returns when the lock is lost. -/
def runDog (s : State C ν) (c : C) (l : RedisLock ν) (fate : Fate) : State C ν :=
  let (held, str) := l.delayExpire fate (s.nodes l.client l.getLockKey) 15
  let s := s.setKey l.client l.getLockKey str
  if held = some false then s.setDogs c l.client (s.dogs c l.client - 1) else s

/-- The end of the loop of `RedLock.Lock`. -/
def finishLock (s : State C ν) (c : C) (successCnt : ℕ) (acquired : List (RedisLock ν)) :
    State C ν :=
  if successCnt < (redLock c).locks.length / 2 + 1 then s.setPhase c (.rollback acquired)
  else (s.setPhase c .idle).setHolds c true

/-- The step that an event is, if it can be taken. -/
def step (s : State C ν) : Event C ν → Option (State C ν)
  | .lock c =>
    match s.phase c with
    | .idle => some (s.setPhase c (.locking (redLock c).locks 0 []))
    | _ => none
  | .tryNext c fate cost =>
    match s.phase c with
    | .locking (l :: rest) successCnt acquired =>
      some (tryNext redLock s c l rest successCnt acquired fate cost)
    | _ => none
  | .unlockNext c fate =>
    match s.phase c with
    | .rollback (l :: rest) => some ((unlockOne s l fate).setPhase c (.rollback rest))
    | .unlocking (l :: rest) => some ((unlockOne s l fate).setPhase c (.unlocking rest))
    | _ => none
  | .finish c =>
    match s.phase c with
    | .locking [] successCnt acquired => some (finishLock redLock s c successCnt acquired)
    | .rollback [] => some (s.setPhase c .idle)
    | .unlocking [] => some (s.setPhase c .idle)
    | _ => none
  | .unlock c =>
    match s.phase c with
    | .idle => some ((s.setHolds c false).setPhase c (.unlocking (redLock c).locks))
    | _ => none
  | .dog c i fate =>
    match (redLock c).locks.find? (·.client = i) with
    | some l => if 0 < s.dogs c i then some (runDog s c l fate) else none
    | none => none
  | .dogLeaves c i => some (s.setDogs c i (s.dogs c i - 1))

end Step

end Yukino.Locks
