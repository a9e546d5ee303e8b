import Yukino.Lib.MachineInt
import Yukino.Lib.Redis

set_option autoImplicit false

/-!
# Two rings in one Redis

`redis.RedisHashRing` keeps a ring under three keys of Redis, and the data keys of its nodes under
one more for every node. The keys are built from the key of the ring, except that those of the
data keys are built from the id of the node alone. So two rings share the data keys of the nodes
with the same id, and the key of one ring can be chosen so that its table is one of the other keys
of another ring.

## Main definitions

* `Conn`, `Command` — the database, and computations that send commands to it.
* `RedisHashRing` with `add`, `rem`, `ceiling`, `floor`, `node` and the operations on replicas and
  data keys.
* `RedisHashRing.Meets` — two rings use the same key of Redis.

## Main results

* `RedisHashRing.rings_independent` — operations that do not write a key of the other ring do not
  change what that one returns.
* `RedisHashRing.data_keys_shared` — two rings with a node of the same id.

## Design

Every command may be lost or left without a reply, and an operation that gets no reply stops. The
JSON of a list of ids and of a set of data keys, and `strconv.Atoi` without its error, are
parameters. The time to live of the lock runs out at any time. The texts in
which the source wraps the errors of Redis are left out.
-/

namespace Yukino.HashRing

open MachineInt Redis

/-! ## Commands -/

/-- What Redis keeps under a key. -/
inductive Value
  | str (s : String)
  | hash (h : AList fun _ : String => String)
  | zset (z : ZSet)

/-- The database, and what will happen to the next commands. -/
structure Conn where
  db : String → Option Value
  fates : List Fate := []

/-- Computations that send commands; they can fail. -/
abbrev Command := EStateM String Conn

namespace Command

variable {α β : Type}

/-- A command about one key. -/
def send (key : String) (f : Option Value → Except String α × Option Value) : Command α :=
  fun s =>
    let sent := (s.fates.headD .answered).send (fun v => (some (f v).1, (f v).2)) (s.db key)
    let s := { db := Function.update s.db key sent.2, fates := s.fates.tail }
    match sent.1 with
    | none => .error "no reply" s
    | some (.error e) => .error e s
    | some (.ok a) => .ok a s

/-- The answer of Redis to a command for another type of value. -/
def wrongType : String := "WRONGTYPE Operation against a key holding the wrong kind of value"

/-- A command on a sorted set. An empty one is no key. -/
def onZSet (key : String) (f : ZSet → α × ZSet) : Command α :=
  let run (z : ZSet) : Except String α × Option Value :=
    (.ok (f z).1, if (f z).2.keys = [] then none else some (.zset (f z).2))
  send key fun v =>
    match v with
    | none => run ∅
    | some (.zset z) => run z
    | some v => (.error wrongType, some v)

/-- A command on a hash. -/
def onHash (key : String) (f : (AList fun _ : String => String) →
    α × AList fun _ : String => String) : Command α :=
  let run (h : AList fun _ : String => String) : Except String α × Option Value :=
    (.ok (f h).1, if (f h).2.keys = [] then none else some (.hash (f h).2))
  send key fun v =>
    match v with
    | none => run ∅
    | some (.hash h) => run h
    | some v => (.error wrongType, some v)

/-- A command that reads. -/
def read (key : String) (f : Option Value → Except String α) : Command α :=
  send key fun v => (f v, v)

/-- The members whose scores `p` holds for, in the order of the scores. -/
def zrange (key : String) (p : ℤ → Bool) : Command (List (ℤ × String)) :=
  read key fun v =>
    let sorted (z : ZSet) : List (ℤ × String) :=
      (z.entries.filter (p ·.2)).mergeSort (fun a b => a.2 < b.2 || a.2 = b.2 && a.1 ≤ b.1)
        |>.map fun e => (e.2, e.1)
    match v with
    | none => .ok []
    | some (.zset z) => .ok (sorted z)
    | some _ => .error wrongType

def zadd (key : String) (score : ℤ) (member : String) : Command Unit :=
  onZSet key fun z => ((), z.zadd score member)

/-- `ZRem`: the members with a score. -/
def zrem (key : String) (score : ℤ) : Command Unit :=
  onZSet key fun z => ((), z.zremrange score score)

def hset (key field val : String) : Command Unit := onHash key fun h => ((), h.insert field val)

def hdel (key field : String) : Command Unit := onHash key fun h => ((), h.erase field)

def hgetall (key : String) : Command (List (String × String)) :=
  read key fun v =>
    match v with
    | none => .ok []
    | some (.hash h) => .ok (h.entries.map fun e => (e.1, e.2))
    | some _ => .error wrongType

/-- `Get`, where `redis.Nil` is no error for the callers. -/
def get (key : String) : Command String :=
  read key fun v =>
    match v with
    | none => .ok ""
    | some (.str s) => .ok s
    | some _ => .error wrongType

def set (key val : String) : Command Unit := send key fun _ => (.ok (), some (.str val))

def del (key : String) : Command Unit := send key fun _ => (.ok (), none)

def setNX (key val : String) : Command Bool :=
  send key fun v => if v.isSome then (.ok false, v) else (.ok true, some (.str val))

/-- The script that deletes a lock of its owner. -/
def checkAndDelete (key token : String) : Command Bool :=
  send key fun v =>
    match v with
    | none => (.ok false, v)
    | some (.str s) => if s = token then (.ok true, none) else (.ok false, v)
    | some _ => (.error wrongType, v)

end Command

/-! ## The ring -/

/-- The texts that the ring writes. -/
structure Texts where
  marshalIDs : List String → String
  unmarshalIDs : String → Except String (List String)
  marshalKeys : Finset String → String
  unmarshalKeys : String → Except String (Finset String)
  atoi : String → ℤ

structure RedisHashRing where
  key : String
  deriving DecidableEq

namespace RedisHashRing

open Command

variable (j : Texts) (r : RedisHashRing)

/-- The prefix of `redis_lock` and that of `getLockKey`. -/
def getLockKey : String := "REDIS_LOCK_PREFIX_redis:consistent_hash:ring:lock:" ++ r.key

def getTableKey : String := "redis:consistent_hash:ring:" ++ r.key

def getNodeReplicaKey : String := "redis:consistent_hash:ring:node:replica:" ++ r.key

def getNodeDataKey (nodeID : String) : String :=
  "redis:consistent_hash:ring:node:data:" ++ nodeID

def lock (token : String) : Command Unit := do
  if ← setNX r.getLockKey token then return ()
  else throw "reply: 0, err: lock is acquired by others"

def unlock (token : String) : Command Unit := do
  if ← checkAndDelete r.getLockKey token then return ()
  else throw "can not unlock without ownership of lock"

def add (score : ℤ) (nodeID : String) : Command Unit := do
  match ← zrange r.getTableKey (fun x => x = score) with
  | [] => zadd r.getTableKey score (j.marshalIDs [nodeID])
  | [entity] =>
    let nodeIDs ← ofExcept (j.unmarshalIDs entity.2)
    if nodeID ∈ nodeIDs then return () else
    zrem r.getTableKey entity.1
    zadd r.getTableKey score (j.marshalIDs (nodeIDs ++ [nodeID]))
  | entities => throw s!"invalid score entity len: {entities.length}"

def ceiling (score : ℤ) : Command ℤ := do
  match (← zrange r.getTableKey (score ≤ ·)).head? with
  | some entity => return int32 entity.1
  | none =>
    match (← zrange r.getTableKey fun _ => true).head? with
    | some entity => return int32 entity.1
    | none => return -1

def floor (score : ℤ) : Command ℤ := do
  match (← zrange r.getTableKey (· ≤ score)).getLast? with
  | some entity => return int32 entity.1
  | none =>
    match (← zrange r.getTableKey fun _ => true).getLast? with
    | some entity => return int32 entity.1
    | none => return -1

def rem (score : ℤ) (nodeID : String) : Command Unit := do
  match ← zrange r.getTableKey (fun x => x = score) with
  | [entity] =>
    let nodeIDs ← ofExcept (j.unmarshalIDs entity.2)
    if nodeID ∉ nodeIDs then return () else
    zrem r.getTableKey entity.1
    if nodeIDs.erase nodeID = [] then return () else
    zadd r.getTableKey entity.1 (j.marshalIDs (nodeIDs.erase nodeID))
  | entities => throw s!"redis ring rem failed, invalid score entity len: {entities.length}"

def nodes : Command (List (String × ℤ)) := do
  return (← hgetall r.getNodeReplicaKey).map fun e => (e.1, j.atoi e.2)

def addNodeToReplica (nodeID : String) (replicas : ℤ) : Command Unit :=
  hset r.getNodeReplicaKey nodeID (toString replicas)

def deleteNodeToReplica (nodeID : String) : Command Unit := hdel r.getNodeReplicaKey nodeID

def node (score : ℤ) : Command (List String) := do
  match ← zrange r.getTableKey (fun x => x = score) with
  | [entity] => ofExcept (j.unmarshalIDs entity.2)
  | entities => throw s!"redis ring node failed, invalid len of score entities: {entities.length}"

def dataKeys (nodeID : String) : Command (Finset String) := do
  let resStr ← get (getNodeDataKey nodeID)
  if resStr = "" then return ∅ else ofExcept (j.unmarshalKeys resStr)

def addNodeToDataKeys (nodeID : String) (dataKeys : Finset String) : Command Unit := do
  let oldDataKeys ← RedisHashRing.dataKeys j nodeID
  set (getNodeDataKey nodeID) (j.marshalKeys (oldDataKeys ∪ dataKeys))

def deleteNodeToDataKeys (nodeID : String) (dataKeys : Finset String) : Command Unit := do
  let oldDataKeys ← RedisHashRing.dataKeys j nodeID
  if oldDataKeys \ dataKeys = ∅ then del (getNodeDataKey nodeID)
  else set (getNodeDataKey nodeID) (j.marshalKeys (oldDataKeys \ dataKeys))

/-! ## Sequences of operations -/

/-- An operation of `HashRing`, or the end of the time to live of the lock. -/
inductive Op
  | lock (token : String)
  | unlock (token : String)
  | lockExpired
  | add (score : ℤ) (nodeID : String)
  | ceiling (score : ℤ)
  | floor (score : ℤ)
  | rem (score : ℤ) (nodeID : String)
  | nodes
  | addNodeToReplica (nodeID : String) (replicas : ℤ)
  | deleteNodeToReplica (nodeID : String)
  | node (score : ℤ)
  | dataKeys (nodeID : String)
  | addNodeToDataKeys (nodeID : String) (dataKeys : Finset String)
  | deleteNodeToDataKeys (nodeID : String) (dataKeys : Finset String)

/-- What an operation returns. -/
inductive Reply
  | done
  | score (score : ℤ)
  | ids (nodeIDs : List String)
  | nodes (nodes : List (String × ℤ))
  | keys (dataKeys : Finset String)
  deriving DecidableEq

def perform : Op → Command Reply
  | .lock token => do r.lock token; return .done
  | .unlock token => do r.unlock token; return .done
  | .lockExpired => do del r.getLockKey; return .done
  | .add score nodeID => do r.add j score nodeID; return .done
  | .ceiling score => do return .score (← r.ceiling score)
  | .floor score => do return .score (← r.floor score)
  | .rem score nodeID => do r.rem j score nodeID; return .done
  | .nodes => do return .nodes (← r.nodes j)
  | .addNodeToReplica nodeID replicas => do r.addNodeToReplica nodeID replicas; return .done
  | .deleteNodeToReplica nodeID => do r.deleteNodeToReplica nodeID; return .done
  | .node score => do return .ids (← r.node j score)
  | .dataKeys nodeID => do return .keys (← dataKeys j nodeID)
  | .addNodeToDataKeys nodeID keys => do addNodeToDataKeys j nodeID keys; return .done
  | .deleteNodeToDataKeys nodeID keys => do deleteNodeToDataKeys j nodeID keys; return .done

/-- The state that a computation leaves, whether it fails or not. -/
def after {α : Type} (x : Command α) (s : Conn) : Conn :=
  match x s with
  | .ok _ s' => s'
  | .error _ s' => s'

/-- The database after operations, each with the fates of its commands. -/
def run (ops : List (Op × List Fate)) (db : String → Option Value) : String → Option Value :=
  ops.foldl (fun db op => (after (r.perform j op.1) { db := db, fates := op.2 }).db) db

/-- What an operation returns when all its commands are answered. -/
def returns (op : Op) (db : String → Option Value) : Except String Reply :=
  match r.perform j op { db := db } with
  | .ok a _ => .ok a
  | .error e _ => .error e

/-- The families of keys. -/
inductive Family
  | lock
  | table
  | replica
  | data (nodeID : String)

/-- The family of the key that an operation works on. -/
def Op.family : Op → Family
  | .lock _ | .unlock _ | .lockExpired => .lock
  | .add _ _ | .ceiling _ | .floor _ | .rem _ _ | .node _ => .table
  | .nodes | .addNodeToReplica _ _ | .deleteNodeToReplica _ => .replica
  | .dataKeys n | .addNodeToDataKeys n _ | .deleteNodeToDataKeys n _ => .data n

/-- The operation only reads. -/
def Op.reads : Op → Bool
  | .ceiling _ | .floor _ | .nodes | .node _ | .dataKeys _ => true
  | _ => false

/-- Two rings use the same key for two families. -/
def Meets (a b : RedisHashRing) : Family → Family → Bool
  | .lock, .lock | .table, .table | .replica, .replica => a.key = b.key
  | .data n, .data n' => n = n'
  | .table, .replica => a.key = "node:replica:" ++ b.key
  | .replica, .table => b.key = "node:replica:" ++ a.key
  | .table, .data n => a.key = "node:data:" ++ n
  | .data n, .table => b.key = "node:data:" ++ n
  | _, _ => false

/-- The key of a family. -/
def keyOf : Family → String
  | .lock => r.getLockKey
  | .table => r.getTableKey
  | .replica => r.getNodeReplicaKey
  | .data n => getNodeDataKey n

/-- **When two keys are the same.** -/
lemma keyOf_eq_iff (a b : RedisHashRing) (f g : Family) :
    a.keyOf f = b.keyOf g ↔ Meets a b f g = true := by
  have hlock : ∀ r : RedisHashRing, r.getLockKey =
      "REDIS_LOCK_PREFIX_redis:consistent_hash:ring:lock:" ++ r.key := fun _ => rfl
  have htable : ∀ r : RedisHashRing, r.getTableKey = "redis:consistent_hash:ring:" ++ r.key :=
    fun _ => rfl
  have hreplica : ∀ r : RedisHashRing, r.getNodeReplicaKey =
      "redis:consistent_hash:ring:" ++ ("node:replica:" ++ r.key) := fun r => by
    unfold getNodeReplicaKey
    apply String.toList_inj.1
    simp
  have hdata : ∀ n, getNodeDataKey n = "redis:consistent_hash:ring:" ++ ("node:data:" ++ n) :=
    fun n => by
      unfold getNodeDataKey
      apply String.toList_inj.1
      simp
  have hne : ∀ x y, "node:replica:" ++ x ≠ "node:data:" ++ y := fun x y h => by
    simpa using congrArg String.toList h
  have hne' : ∀ x y, "REDIS_LOCK_PREFIX_redis:consistent_hash:ring:lock:" ++ x ≠
      "redis:consistent_hash:ring:" ++ y := fun x y h => by
    simpa using congrArg String.toList h
  cases f <;> cases g
  all_goals
    simp only [keyOf, Meets, hlock, htable, hreplica, hdata, String.append_right_inj, hne, hne',
      (hne _ _).symm, (hne' _ _).symm, decide_eq_true_eq, Bool.false_eq_true]
  · exact eq_comm
  · exact eq_comm

/-! ## Computations on one key -/

/-- The computation works on one key: it leaves the others, and that one too if it only reads, and
what it returns depends on that key only. -/
structure WorksOn {α : Type} (key : String) (reads : Bool) (x : Command α) : Prop where
  frame : ∀ s k, k ≠ key ∨ reads = true → (after x s).db k = s.db k
  depends : ∀ s s', s.db key = s'.db key → s.fates = s'.fates →
    match x s, x s' with
    | .ok a t, .ok b t' => a = b ∧ t.db key = t'.db key ∧ t.fates = t'.fates
    | .error e _, .error e' _ => e = e'
    | _, _ => False

section WorksOn

variable {α β : Type} {key : String} {reads : Bool}

lemma worksOn_pure (a : α) : WorksOn key reads (pure a : Command α) where
  frame _ _ _ := rfl
  depends _ _ hdb hfates := ⟨rfl, hdb, hfates⟩

lemma worksOn_throw (e : String) : WorksOn key reads (throw e : Command α) where
  frame _ _ _ := rfl
  depends _ _ _ _ := rfl

lemma worksOn_ofExcept (x : Except String α) : WorksOn key reads (ofExcept x : Command α) := by
  cases x with
  | ok a => exact worksOn_pure a
  | error e => exact worksOn_throw e

lemma worksOn_send {f : Option Value → Except String α × Option Value}
    (hf : reads = true → ∀ v, (f v).2 = v) : WorksOn key reads (send key f) where
  frame s k hk := by
    -- a command that only reads writes back what it found
    have hsame : reads = true → ∀ fate : Fate,
        (fate.send (fun v => (some (f v).1, (f v).2)) (s.db key)).2 = s.db key := by
      intro hreads fate
      cases fate <;> simp [Fate.send, hf hreads]
    have hdb : (after (send key f) s).db = Function.update s.db key
        ((s.fates.headD .answered).send (fun v => (some (f v).1, (f v).2)) (s.db key)).2 := by
      unfold after send
      generalize Fate.send _ _ _ = sent
      rcases sent with ⟨_ | _ | _, v⟩ <;> rfl
    rw [hdb]
    rcases hk with hk | hk
    · exact Function.update_of_ne hk _ _
    · rw [hsame hk, Function.update_eq_self]
  depends s s' hdb hfates := by
    unfold send
    rw [hdb, hfates]
    generalize Fate.send _ _ _ = sent
    rcases sent with ⟨_ | _ | a, v⟩
    · rfl
    · rfl
    · exact ⟨rfl, by simp, rfl⟩

lemma WorksOn.bind {x : Command α} {f : α → Command β} (hx : WorksOn key reads x)
    (hf : ∀ a, WorksOn key reads (f a)) : WorksOn key reads (x >>= f) where
  frame s k hk := by
    have h := hx.frame s k hk
    have heq : (x >>= f) s = EStateM.bind x f s := rfl
    unfold after at h ⊢
    rw [heq, EStateM.bind]
    cases hxs : x s with
    | ok a t =>
      rw [hxs] at h
      exact ((hf a).frame t k hk).trans h
    | error e t =>
      rw [hxs] at h
      exact h
  depends s s' hdb hfates := by
    have h := hx.depends s s' hdb hfates
    have heq : ∀ s, (x >>= f) s = EStateM.bind x f s := fun _ => rfl
    rw [heq, heq, EStateM.bind, EStateM.bind]
    cases hxs : x s <;> cases hxs' : x s' <;> rw [hxs, hxs'] at h
    · obtain ⟨rfl, hdb, hfates⟩ := h
      exact (hf _).depends _ _ hdb hfates
    · exact h.elim
    · exact h.elim
    · exact h

lemma worksOn_ite {p : Prop} [Decidable p] {x y : Command α} (hx : WorksOn key reads x)
    (hy : WorksOn key reads y) : WorksOn key reads (if p then x else y) := by
  split
  · exact hx
  · exact hy

lemma worksOn_zrange (p : ℤ → Bool) : WorksOn key reads (zrange key p) :=
  worksOn_send fun _ _ => rfl

lemma worksOn_zadd (score : ℤ) (member : String) : WorksOn key false (zadd key score member) :=
  worksOn_send (by simp)

lemma worksOn_zrem (score : ℤ) : WorksOn key false (zrem key score) := worksOn_send (by simp)

lemma worksOn_dataKeys (nodeID : String) :
    WorksOn (getNodeDataKey nodeID) reads (dataKeys j nodeID) :=
  (worksOn_send fun _ _ => rfl).bind fun _ => worksOn_ite (worksOn_pure _) (worksOn_ofExcept _)

end WorksOn

/-- **Every operation works on one key.** -/
lemma worksOn_perform (op : Op) : WorksOn (r.keyOf op.family) op.reads (r.perform j op) := by
  cases op with
  | lock token | unlock token =>
    refine WorksOn.bind (WorksOn.bind (worksOn_send (by simp [Op.reads])) fun _ => ?_)
      fun _ => worksOn_pure _
    exact worksOn_ite (worksOn_pure _) (worksOn_throw _)
  | lockExpired | addNodeToReplica nodeID replicas | deleteNodeToReplica nodeID =>
    exact (worksOn_send (by simp [Op.reads])).bind fun _ => worksOn_pure _
  | add score nodeID =>
    refine WorksOn.bind ((worksOn_zrange _).bind fun entities => ?_) fun _ => worksOn_pure _
    split
    · exact worksOn_zadd _ _
    · refine (worksOn_ofExcept _).bind fun _ => worksOn_ite (worksOn_pure _) ?_
      exact (worksOn_zrem _).bind fun _ => worksOn_zadd _ _
    · exact worksOn_throw _
  | rem score nodeID =>
    refine WorksOn.bind ((worksOn_zrange _).bind fun entities => ?_) fun _ => worksOn_pure _
    split
    · refine (worksOn_ofExcept _).bind fun _ => worksOn_ite (worksOn_pure _) ?_
      exact (worksOn_zrem _).bind fun _ => worksOn_ite (worksOn_pure _) (worksOn_zadd _ _)
    · exact worksOn_throw _
  | ceiling score | floor score =>
    refine WorksOn.bind ((worksOn_zrange _).bind fun _ => ?_) fun _ => worksOn_pure _
    split
    · exact worksOn_pure _
    · refine (worksOn_zrange _).bind fun _ => ?_
      split <;> exact worksOn_pure _
  | node score =>
    refine WorksOn.bind ((worksOn_zrange _).bind fun _ => ?_) fun _ => worksOn_pure _
    split
    · exact worksOn_ofExcept _
    · exact worksOn_throw _
  | nodes =>
    exact WorksOn.bind (WorksOn.bind (worksOn_send fun _ _ => rfl) fun _ => worksOn_pure _)
      fun _ => worksOn_pure _
  | dataKeys nodeID => exact (worksOn_dataKeys j nodeID).bind fun _ => worksOn_pure _
  | addNodeToDataKeys nodeID keys =>
    refine WorksOn.bind ((worksOn_dataKeys j nodeID).bind fun _ => ?_) fun _ => worksOn_pure _
    exact worksOn_send (by simp [Op.reads])
  | deleteNodeToDataKeys nodeID keys =>
    refine WorksOn.bind ((worksOn_dataKeys j nodeID).bind fun _ => ?_) fun _ => worksOn_pure _
    exact worksOn_ite (worksOn_send (by simp [Op.reads])) (worksOn_send (by simp [Op.reads]))

/-- The key of the other ring stays as it is, by induction on the operations. -/
lemma run_frame (ops : List (Op × List Fate)) (key : String)
    (h : ∀ op ∈ ops, op.1.reads = true ∨ r.keyOf op.1.family ≠ key)
    (db : String → Option Value) : r.run j ops db key = db key := by
  induction ops generalizing db with
  | nil => rfl
  | cons op ops ih =>
    rw [List.forall_mem_cons] at h
    refine (ih h.2 _).trans ((r.worksOn_perform j op.1).frame _ key ?_)
    exact h.1.symm.imp_left Ne.symm

/-- **Independent rings.** Operations of one ring that only read, or whose key of Redis is not
the one that an operation of the other ring works on, do not change what that returns. -/
theorem rings_independent (j : Texts) (a b : RedisHashRing) (ops : List (Op × List Fate))
    (db : String → Option Value) (query : Op)
    (h : ∀ op ∈ ops, op.1.reads = true ∨ Meets a b op.1.family query.family = false) :
    b.returns j query (a.run j ops db) = b.returns j query db := by
  have hkey : a.run j ops db (b.keyOf query.family) = db (b.keyOf query.family) := by
    refine a.run_frame j ops _ (fun op hop => (h op hop).imp_right fun hne heq => ?_) db
    rw [keyOf_eq_iff, hne] at heq
    cases heq
  have hdepends :=
    (b.worksOn_perform j query).depends { db := a.run j ops db } { db := db } hkey rfl
  unfold returns
  cases hx : b.perform j query { db := a.run j ops db } <;>
    cases hy : b.perform j query { db := db } <;> rw [hx, hy] at hdepends
  · rw [hdepends.1]
  · exact hdepends.elim
  · exact hdepends.elim
  · rw [hdepends]

/-- Texts for the one data key `k`, and the list of the one id `a_0`. -/
def oneKey : Texts where
  marshalIDs _ := "[\"a_0\"]"
  unmarshalIDs _ := .ok ["a_0"]
  marshalKeys keys := if "k" ∈ keys then "\x7b\"k\":\x7b\x7d\x7d" else "\x7b\x7d"
  unmarshalKeys s := .ok (if s = "\x7b\x7d" then ∅ else {"k"})
  atoi _ := 5

/-- The ring `x` gets a virtual node, and the ring `y` stays empty. -/
theorem rings_independent_add :
    (RedisHashRing.mk "y").returns oneKey (.ceiling 0)
      ((RedisHashRing.mk "x").run oneKey [(.add 7 "a_0", [])] fun _ => none) =
      .ok (.score (-1)) := by
  rw [rings_independent oneKey ⟨"x"⟩ ⟨"y"⟩ [(.add 7 "a_0", [])] (fun _ => none) (.ceiling 0)
    (by decide)]
  rfl

/-- The ring `y` returns the data key that the ring `x` has recorded for a node with the same
id. -/
theorem data_keys_shared :
    (RedisHashRing.mk "y").returns oneKey (.dataKeys "a") (fun _ => none) = .ok (.keys ∅) ∧
    (RedisHashRing.mk "y").returns oneKey (.dataKeys "a")
      ((RedisHashRing.mk "x").run oneKey [(.addNodeToDataKeys "a" {"k"}, [])] fun _ => none) =
        .ok (.keys {"k"}) := by
  decide +kernel

end RedisHashRing

end Yukino.HashRing
