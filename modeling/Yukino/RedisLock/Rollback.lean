import Yukino.RedisLock.Exclusion

set_option autoImplicit false

/-!
# What a failed `RedLock.Lock` leaves behind

`RedLock.Lock` tries the lock of every node, and counts those that it got in time. If these are not
more than half, it gives back the locks that it counted. A lock that took longer is not counted, so
it is not given back either: the node keeps the token, and a watch dog goes on to renew it.

## Main definitions

* `Attempt`, `RedLock.lock` — one call of `Lock`, for any outcome
  on each node.
* `Client.Released` — a call that fails leaves nothing behind.
* `Client.outcomesFit` — the condition on the outcomes.

## Main results

* `Tried.lockNext` — what one round of the loop does.
* `released_iff` — nothing is left if and only if the condition holds.

## Design

Whether a node that is reached takes the lock or refuses it depends on its key. `NewRedLock` may be
given a node twice; then the second lock finds the token of the first one.
-/

namespace Yukino.Locks

open List

/-! ## One call -/

/-- What happens to the lock of a node: whether its command reaches the node, and how long `Lock` of
this node takes. -/
structure Outcome where
  reached : Bool
  cost : ℤ

/-- What a call of `RedLock.Lock` has done. The locks are known by their positions. -/
structure Attempt (ν : Type) where
  nodes : ν → String → Redis.Str
  successCnt : ℕ := 0
  acquired : List (RedisLock ν × ℕ) := []
  /-- The locks whose watch dogs run. -/
  dogs : List ℕ := []

section Call

variable {ν : Type} [DecidableEq ν]

namespace Attempt

def setKey (a : Attempt ν) (l : RedisLock ν) (str : Redis.Str) : Attempt ν :=
  let keys := Function.update (a.nodes l.client) l.getLockKey str
  { a with nodes := Function.update a.nodes l.client keys }

/-- One round of the loop of `Lock`. -/
def lockNext (timeout : ℤ) (outcome : ℕ → Outcome) (a : Attempt ν) (p : RedisLock ν × ℕ) :
    Attempt ν :=
  let fate := if (outcome p.2).reached then Redis.Fate.answered else .lost
  let (ok, str) := p.1.tryLock fate (a.nodes p.1.client p.1.getLockKey)
  let a := a.setKey p.1 str
  let a := if ok && p.1.watchDogMode then { a with dogs := a.dogs ++ [p.2] } else a
  if ok && (outcome p.2).cost ≤ timeout then
    { a with successCnt := a.successCnt + 1, acquired := a.acquired ++ [p] }
  else a

/-- `Unlock` of one node, whose command succeeds; it stops the watch dog of the lock. -/
def unlockNext (a : Attempt ν) (p : RedisLock ν × ℕ) : Attempt ν :=
  let (_, str) := p.1.unlock .answered (a.nodes p.1.client p.1.getLockKey)
  { a.setKey p.1 str with dogs := a.dogs.filter (· ≠ p.2) }

end Attempt

/-- Whether `Lock` succeeds, and what it has done. -/
def RedLock.lock (r : RedLock ν) (nodes : ν → String → Redis.Str) (outcome : ℕ → Outcome) :
    Bool × Attempt ν :=
  let a := r.locks.zipIdx.foldl (Attempt.lockNext r.singleNodesTimeout outcome) { nodes }
  if a.successCnt < r.locks.length / 2 + 1 then (false, a.acquired.foldl Attempt.unlockNext a)
  else (true, a)

/-- The first of the locks whose command reaches the node. -/
def firstAt (locks : List (RedisLock ν × ℕ)) (outcome : ℕ → Outcome) (i : ν) : Option ℕ :=
  (locks.find? fun p => p.1.client = i && (outcome p.2).reached).map (·.2)

namespace Client

variable (cl : Client ν) (nodes : ν → String → Redis.Str) (outcome : ℕ → Outcome)

/-- If the call fails, no node that has executed its `SET .. NX` holds the token, and no watch dog
of the call runs. The client sends no command with an empty token. -/
def Released : Prop :=
  let (ok, a) := cl.redLock.lock nodes outcome
  ok = false → (∀ p ∈ cl.redLock.locks.zipIdx, (outcome p.2).reached = true → cl.token ≠ "" →
    (a.nodes p.1.client cl.lockKey).get ≠ some cl.token) ∧ a.dogs = []

/-- The node is free before the call, and its lock is taken in time. -/
def quick (locks : List (RedisLock ν × ℕ)) (i : ν) : Bool :=
  (firstAt locks outcome i).any fun n =>
    nodes i cl.lockKey = none && (outcome n).cost ≤ cl.redLock.singleNodesTimeout

/-- The node is free before the call, and its lock is taken too late, or the node has the token
already. -/
def stuck (locks : List (RedisLock ν × ℕ)) (i : ν) : Bool :=
  (firstAt locks outcome i).any fun n =>
    nodes i cl.lockKey = none && cl.redLock.singleNodesTimeout < (outcome n).cost ||
      (nodes i cl.lockKey).get = some cl.token

/-- More than half of the nodes are taken in time, or none is taken too late and none that is
reached has the token before the call. -/
def outcomesFit : Bool :=
  let locks := cl.redLock.locks.zipIdx
  let clients := cl.redLock.locks.map (·.client)
  cl.token = "" ||
    clients.length / 2 + 1 ≤ (clients.dedup.filter (cl.quick nodes outcome locks)).length ||
      clients.all fun i => !cl.stuck nodes outcome locks i

end Client

/-! ## The loop -/

variable {cl : Client ν} {nodes : ν → String → Redis.Str} {outcome : ℕ → Outcome}
  {locks : List (RedisLock ν × ℕ)} {a : Attempt ν} {p : RedisLock ν × ℕ} {i : ν}

omit [DecidableEq ν] in
lemma Client.expireSeconds_pos {l : RedisLock ν} (hl : l ∈ cl.redLock.locks) :
    0 < l.expireSeconds := by
  obtain ⟨opts, h⟩ := cl.locks_eq
  rw [h] at hl
  obtain ⟨conf, -, rfl⟩ := mem_map.1 hl
  unfold newRedisLock repairLock
  split_ifs with hpos
  · exact hpos
  · exact (by decide : (0 : ℤ) < 30)

lemma firstAt_concat : firstAt (locks ++ [p]) outcome i = (firstAt locks outcome i).or
    (if p.1.client = i ∧ (outcome p.2).reached = true then some p.2 else none) := by
  unfold firstAt
  rw [find?_append]
  cases locks.find? fun p => p.1.client = i && (outcome p.2).reached with
  | some q => simp
  | none =>
    simp only [find?_cons]
    by_cases hi : p.1.client = i <;> cases hr : (outcome p.2).reached <;> simp [hi]

/-- A lock that is not taken changes nothing. -/
lemma lockNext_of_not_taken (timeout : ℤ)
    (h : p.1.tryLock (if (outcome p.2).reached then .answered else .lost)
      (a.nodes p.1.client p.1.getLockKey) = (false, a.nodes p.1.client p.1.getLockKey)) :
    a.lockNext timeout outcome p = a := by
  simp [Attempt.lockNext, h, Attempt.setKey]

/-- A lock is not taken if its command does not reach its node, or finds the key taken. -/
lemma lockNext_of_refused (timeout : ℤ)
    (h : (outcome p.2).reached = false ∨ a.nodes p.1.client p.1.getLockKey ≠ none) :
    a.lockNext timeout outcome p = a := by
  refine lockNext_of_not_taken timeout ?_
  rcases h with h | h
  · simp [h, RedisLock.tryLock, Redis.Fate.send]
  · obtain ⟨entry, hentry⟩ := Option.ne_none_iff_exists'.1 h
    rw [hentry]
    exact Prod.ext_iff.2 (RedisLock.tryLock_of_some rfl)

/-- A lock whose command reaches a free node is taken. -/
lemma lockNext_of_free (timeout : ℤ) (hmem : p.1 ∈ cl.redLock.locks) (htoken : cl.token ≠ "")
    (hreached : (outcome p.2).reached = true) (hfree : a.nodes p.1.client cl.lockKey = none) :
    ∃ e, a.lockNext timeout outcome p =
      { nodes := (a.setKey p.1 (some (cl.token, e))).nodes
        successCnt := a.successCnt + if (outcome p.2).cost ≤ timeout then 1 else 0
        acquired := a.acquired ++ if (outcome p.2).cost ≤ timeout then [p] else []
        dogs := a.dogs ++ if p.1.watchDogMode then [p.2] else [] } := by
  obtain ⟨hkey, htok⟩ := cl.of_mem_locks hmem
  have hpos := Client.expireSeconds_pos hmem
  refine ⟨p.1.expireSeconds, ?_⟩
  have hnex : setNEX cl.lockKey cl.token p.1.expireSeconds none =
      (some 1, some (cl.token, p.1.expireSeconds)) := by
    have hne : cl.lockKey ≠ "" := by
      unfold Client.lockKey
      simp
    simp [setNEX, hne, htoken, hpos, Redis.Str.setNX]
  have htry : p.1.tryLock .answered none = (true, some (cl.token, p.1.expireSeconds)) := by
    simp [RedisLock.tryLock, Redis.Fate.send, hkey, htok, hnex]
  simp only [Attempt.lockNext, hreached, hkey, hfree, if_true, htry]
  by_cases hcost : (outcome p.2).cost ≤ timeout <;> cases p.1.watchDogMode <;>
    simp [hcost, Attempt.setKey]

/-- What is known after the loop has tried some of the locks. -/
structure Tried (cl : Client ν) (nodes : ν → String → Redis.Str) (outcome : ℕ → Outcome)
    (locks : List (RedisLock ν × ℕ)) (a : Attempt ν) : Prop where
  free : ∀ i, a.nodes i cl.lockKey = none ↔
    nodes i cl.lockKey = none ∧ firstAt locks outcome i = none
  holds : ∀ i, (a.nodes i cl.lockKey).get = some cl.token ↔
    (nodes i cl.lockKey).get = some cl.token ∨
      nodes i cl.lockKey = none ∧ firstAt locks outcome i ≠ none
  acquired : ∀ i, i ∈ a.acquired.map (·.1.client) ↔ cl.quick nodes outcome locks i = true
  nodup : (a.acquired.map (·.1.client)).Nodup
  subset : ∀ p ∈ a.acquired, p.1 ∈ cl.redLock.locks
  count : a.successCnt = a.acquired.length
  dogs : ∀ n ∈ a.dogs, n ∈ a.acquired.map (·.2) ∨ ∃ i, cl.stuck nodes outcome locks i = true

lemma stuck_concat (h : cl.stuck nodes outcome locks i = true) :
    cl.stuck nodes outcome (locks ++ [p]) i = true := by
  unfold Client.stuck at *
  rw [firstAt_concat]
  cases hfirst : firstAt locks outcome i with
  | none => simp [hfirst] at h
  | some n => simpa [hfirst] using h

/-- **One round of the loop.** -/
lemma Tried.lockNext (h : Tried cl nodes outcome locks a) (hmem : p.1 ∈ cl.redLock.locks)
    (htoken : cl.token ≠ "") : Tried cl nodes outcome (locks ++ [p])
      (a.lockNext cl.redLock.singleNodesTimeout outcome p) := by
  have hkey := (cl.of_mem_locks hmem).1
  have hfirst : ∀ i, firstAt (locks ++ [p]) outcome i = _ := fun i => firstAt_concat
  by_cases hskip : (outcome p.2).reached = false ∨ a.nodes p.1.client cl.lockKey ≠ none
  · -- a node that is not free before the call stays so, and another one was reached before
    have hsame : ∀ i, nodes i cl.lockKey = none →
        firstAt (locks ++ [p]) outcome i = firstAt locks outcome i := by
      intro i hi
      have hfree := h.free i
      rw [hfirst]
      by_cases hp : p.1.client = i ∧ (outcome p.2).reached = true
      · obtain ⟨rfl, hr⟩ := hp
        have hne := hskip.resolve_left (by simp [hr])
        cases hn : firstAt locks outcome p.1.client with
        | none => exact absurd (hfree.2 ⟨hi, hn⟩) hne
        | some n => rfl
      · simp [hp]
    rw [lockNext_of_refused _ (hkey ▸ hskip)]
    refine ⟨fun i => ?_, fun i => ?_, fun i => ?_, h.nodup, h.subset, h.count, fun n hn => ?_⟩
    · rw [h.free]
      exact and_congr_right fun hi => by rw [hsame i hi]
    · rw [h.holds]
      exact or_congr_right (and_congr_right fun hi => by rw [hsame i hi])
    · rw [h.acquired]
      unfold Client.quick
      by_cases hi : nodes i cl.lockKey = none
      · rw [hsame i hi]
      · simp [hi]
    · exact (h.dogs n hn).imp_right fun ⟨i, hi⟩ => ⟨i, stuck_concat hi⟩
  · obtain ⟨hreached, hfree⟩ : (outcome p.2).reached = true ∧
        a.nodes p.1.client cl.lockKey = none := by simpa using hskip
    obtain ⟨hbefore, hnone⟩ := (h.free _).1 hfree
    obtain ⟨e, heq⟩ := lockNext_of_free cl.redLock.singleNodesTimeout hmem htoken hreached hfree
    have hnodes : ∀ i, (a.setKey p.1 (some (cl.token, e))).nodes i cl.lockKey =
        if i = p.1.client then some (cl.token, e) else a.nodes i cl.lockKey := by
      intro i
      by_cases hi : i = p.1.client
      · subst hi
        simp [Attempt.setKey, hkey]
      · simp [Attempt.setKey, hi]
    have hfirst' : ∀ i, firstAt (locks ++ [p]) outcome i =
        if i = p.1.client then some p.2 else firstAt locks outcome i := by
      intro i
      rw [hfirst]
      by_cases hi : i = p.1.client
      · subst hi
        simp [hnone, hreached]
      · simp [hi, Ne.symm hi]
    have hfresh : p.1.client ∉ a.acquired.map (·.1.client) := by
      rw [h.acquired]
      simp [Client.quick, hnone]
    rw [heq]
    refine ⟨fun i => ?_, fun i => ?_, fun i => ?_, ?_, ?_, ?_, ?_⟩
    · rw [hnodes, hfirst']
      split_ifs with hi <;> simp [h.free]
    · rw [hnodes, hfirst']
      split_ifs with hi
      · simp [hi, hbefore, Redis.Str.get]
      · exact h.holds i
    · have hacq := h.acquired i
      unfold Client.quick at hacq ⊢
      rw [hfirst', map_append, mem_append, hacq]
      by_cases hi : i = p.1.client
      · subst hi
        by_cases hcost : (outcome p.2).cost ≤ cl.redLock.singleNodesTimeout <;>
          simp [hcost, hnone, hbefore]
      · by_cases hcost : (outcome p.2).cost ≤ cl.redLock.singleNodesTimeout <;> simp [hcost, hi]
    · by_cases hcost : (outcome p.2).cost ≤ cl.redLock.singleNodesTimeout
      · dsimp only
        rw [if_pos hcost, map_append]
        exact h.nodup.append (nodup_singleton _) (disjoint_singleton.2 hfresh)
      · simpa [hcost] using h.nodup
    · intro q hq
      rcases mem_append.1 hq with hq | hq
      · exact h.subset q hq
      · split_ifs at hq with hcost
        · rwa [mem_singleton.1 hq]
        · cases hq
    · rw [h.count]
      split_ifs <;> simp
    · intro n hn
      rcases mem_append.1 hn with hn | hn
      · rcases h.dogs n hn with hn | ⟨i, hi⟩
        · rw [map_append]
          exact .inl (mem_append_left _ hn)
        · exact .inr ⟨i, stuck_concat hi⟩
      · split_ifs at hn with hwatch
        · by_cases hcost : (outcome p.2).cost ≤ cl.redLock.singleNodesTimeout
          · simp_all
          · -- a lock that is taken too late leaves its node stuck
            refine .inr ⟨p.1.client, ?_⟩
            simp [Client.stuck, hfirst', hbefore, not_le.1 hcost]
        · cases hn

/-- The loop over all locks. -/
lemma tried_foldl (htoken : cl.token ≠ "") (hmem : ∀ p ∈ locks, p.1 ∈ cl.redLock.locks) :
    Tried cl nodes outcome locks
      (locks.foldl (Attempt.lockNext cl.redLock.singleNodesTimeout outcome) { nodes }) := by
  induction locks using reverseRecOn with
  | nil => exact ⟨by simp [firstAt], by simp [firstAt], by simp [Client.quick, firstAt],
      nodup_nil, nofun, rfl, nofun⟩
  | append_singleton locks p ih =>
    rw [foldl_append]
    have ih := ih fun q hq => hmem q (mem_append_left _ hq)
    exact ih.lockNext (hmem p (by simp)) htoken

/-! ## Giving back -/

/-- The locks that are given back are free if they had the token, and the others are as before. -/
lemma nodes_giveBack (hmem : ∀ p ∈ locks, p.1 ∈ cl.redLock.locks) (i : ν) :
    (locks.foldl Attempt.unlockNext a).nodes i cl.lockKey =
      if i ∈ locks.map (·.1.client) ∧ (a.nodes i cl.lockKey).get = some cl.token then none
      else a.nodes i cl.lockKey := by
  induction locks generalizing a with
  | nil => simp
  | cons p locks ih =>
    obtain ⟨hkey, htok⟩ := cl.of_mem_locks (hmem p mem_cons_self)
    rw [foldl_cons, ih (forall_mem_cons.1 hmem).2]
    have hnode : (a.unlockNext p).nodes i cl.lockKey =
        if i = p.1.client ∧ (a.nodes i cl.lockKey).get = some cl.token then none
        else a.nodes i cl.lockKey := by
      by_cases hi : i = p.1.client
      · subst hi
        by_cases hget : (a.nodes p.1.client cl.lockKey).get = some cl.token <;>
          simp [Attempt.unlockNext, Attempt.setKey, hkey, RedisLock.unlock, Redis.Fate.send, eval,
            luaCheckAndDelete, htok, hget, Redis.Str.del]
      · simp [Attempt.unlockNext, Attempt.setKey, hi]
    by_cases hown : i = p.1.client ∧ (a.nodes i cl.lockKey).get = some cl.token
    · rw [if_pos hown] at hnode
      rw [hnode, ite_self, if_pos ⟨hown.1 ▸ mem_cons_self, hown.2⟩]
    · rw [if_neg hown] at hnode
      rw [hnode]
      refine if_congr (and_congr_left fun hget => ?_) rfl rfl
      have hi : i ≠ p.1.client := fun hi => hown ⟨hi, hget⟩
      simp [hi]

lemma dogs_giveBack (n : ℕ) : n ∈ (locks.foldl Attempt.unlockNext a).dogs ↔
    n ∈ a.dogs ∧ n ∉ locks.map (·.2) := by
  induction locks generalizing a with
  | nil => simp
  | cons p locks ih =>
    rw [foldl_cons, ih]
    simp [Attempt.unlockNext, and_assoc]

/-! ## The call -/

/-- A node is reached if and only if one of its locks is. -/
lemma firstAt_ne_none : firstAt locks outcome i ≠ none ↔
    ∃ p ∈ locks, p.1.client = i ∧ (outcome p.2).reached = true := by
  simp [firstAt]

/-- What is left on a node after the locks that were counted have been given back. -/
lemma Tried.holds_giveBack (h : Tried cl nodes outcome locks a)
    (hfirst : firstAt locks outcome i ≠ none) :
    ((a.acquired.foldl Attempt.unlockNext a).nodes i cl.lockKey).get = some cl.token ↔
      cl.stuck nodes outcome locks i = true := by
  obtain ⟨n, hn⟩ := Option.ne_none_iff_exists'.1 hfirst
  have hholds := h.holds i
  have hacq := h.acquired i
  rw [nodes_giveBack h.subset]
  simp only [Client.quick, Client.stuck, hn, Option.any_some, Bool.and_eq_true, Bool.or_eq_true,
    decide_eq_true_eq, ne_eq, reduceCtorEq, not_false_eq_true, and_true] at hholds hacq ⊢
  by_cases hi : i ∈ a.acquired.map (·.1.client)
  · obtain ⟨hfree, hcost⟩ := hacq.1 hi
    rw [if_pos ⟨hi, hholds.2 (.inr hfree)⟩, hfree]
    simp [hcost]
  · rw [if_neg fun h => hi h.1, hholds, or_comm]
    refine or_congr_left (and_iff_left_of_imp fun hfree => ?_).symm
    exact not_le.1 fun hcost => hi (hacq.2 ⟨hfree, hcost⟩)

/-- The locks that are counted are those of the nodes that are taken in time. -/
lemma Tried.successCnt_eq (h : Tried cl nodes outcome cl.redLock.locks.zipIdx a) :
    a.successCnt = ((cl.redLock.locks.map (·.client)).dedup.filter
      (cl.quick nodes outcome cl.redLock.locks.zipIdx)).length := by
  rw [h.count, ← length_map (·.1.client)]
  refine List.Perm.length_eq ((perm_ext_iff_of_nodup h.nodup
    ((nodup_dedup _).filter _)).2 fun i => ?_)
  rw [h.acquired, mem_filter, mem_dedup]
  refine (and_iff_right_of_imp fun hquick => ?_).symm
  have hfirst : firstAt cl.redLock.locks.zipIdx outcome i ≠ none := by
    intro hnone
    simp [Client.quick, hnone] at hquick
  obtain ⟨p, hp, rfl, -⟩ := firstAt_ne_none.1 hfirst
  exact mem_map_of_mem (fst_mem_of_mem_zipIdx hp)

/-- A node that is stuck is one of those that the call has reached. -/
lemma exists_of_stuck (h : cl.stuck nodes outcome locks i = true) :
    ∃ p ∈ locks, p.1.client = i ∧ (outcome p.2).reached = true := by
  refine firstAt_ne_none.1 fun hnone => ?_
  simp [Client.stuck, hnone] at h

/-- Without a token no lock is taken. -/
lemma lockNext_of_empty (timeout : ℤ) (htoken : p.1.token = "") :
    a.lockNext timeout outcome p = a := by
  refine lockNext_of_not_taken timeout ?_
  split <;> simp [RedisLock.tryLock, Redis.Fate.send, setNEX, htoken]

lemma released_of_empty (htoken : cl.token = "") : cl.Released nodes outcome := by
  have hloop : ∀ locks : List (RedisLock ν × ℕ), (∀ p ∈ locks, p.1 ∈ cl.redLock.locks) →
      locks.foldl (Attempt.lockNext cl.redLock.singleNodesTimeout outcome) { nodes } =
        { nodes } := by
    intro locks hmem
    induction locks with
    | nil => rfl
    | cons p locks ih =>
      have hp := (cl.of_mem_locks (hmem p mem_cons_self)).2
      rw [foldl_cons, lockNext_of_empty _ (hp.trans htoken)]
      exact ih (forall_mem_cons.1 hmem).2
  unfold Client.Released RedLock.lock
  rw [hloop _ fun p hp => fst_mem_of_mem_zipIdx hp]
  simp [htoken]

/-- **A failed `Lock` leaves nothing behind if and only if the outcomes fit.**

**Proof sketch.** The loop counts the nodes that are free and taken in time, so the call fails if
these are not more than half (`Tried.successCnt_eq`). Giving them back frees them, and a node that
is reached and holds the token then is one that was taken too late, or that had the token before
(`Tried.holds_giveBack`). A watch dog that still runs is one of a lock that was taken too late. -/
theorem released_iff (cl : Client ν) (nodes : ν → String → Redis.Str) (outcome : ℕ → Outcome) :
    cl.Released nodes outcome ↔ cl.outcomesFit nodes outcome = true := by
  by_cases htoken : cl.token = ""
  · exact iff_of_true (released_of_empty htoken) (by simp [Client.outcomesFit, htoken])
  have htried : Tried cl nodes outcome cl.redLock.locks.zipIdx _ :=
    tried_foldl htoken fun p hp => fst_mem_of_mem_zipIdx hp
  have hcnt := htried.successCnt_eq
  simp only [Client.Released, Client.outcomesFit, RedLock.lock, htoken, decide_false,
    Bool.false_or, Bool.or_eq_true, decide_eq_true_eq, length_map, ← hcnt]
  split_ifs with hfail
  · rw [or_iff_right (not_le.2 hfail)]
    simp only [all_eq_true, Bool.not_eq_true', mem_map, forall_const]
    constructor
    · rintro ⟨hnodes, -⟩ i -
      rw [Bool.eq_false_iff]
      intro hstuck
      obtain ⟨p, hp, rfl, hreached⟩ := exists_of_stuck hstuck
      have hfirst := firstAt_ne_none.2 ⟨p, hp, rfl, hreached⟩
      exact hnodes p hp hreached htoken ((htried.holds_giveBack hfirst).2 hstuck)
    · intro hfit
      have hfree : ∀ i, cl.stuck nodes outcome cl.redLock.locks.zipIdx i ≠ true := by
        intro i hstuck
        obtain ⟨p, hp, rfl, -⟩ := exists_of_stuck hstuck
        simp [hfit p.1.client ⟨p.1, fst_mem_of_mem_zipIdx hp, rfl⟩] at hstuck
      refine ⟨fun p hp hreached _ hholds => ?_, eq_nil_iff_forall_not_mem.2 fun n hn => ?_⟩
      · have hfirst := firstAt_ne_none.2 ⟨p, hp, rfl, hreached⟩
        exact hfree _ ((htried.holds_giveBack hfirst).1 hholds)
      · obtain ⟨hn, hnot⟩ := (dogs_giveBack n).1 hn
        obtain ⟨i, hi⟩ := (htried.dogs n hn).resolve_left hnot
        exact hfree i hi
  · exact iff_of_true nofun (.inl (not_lt.1 hfail))

end Call

/-- One node of three takes the lock, after more than 50 ms; the others are not reached. -/
theorem slow_lock_kept :
    let cl : Client (Fin 3) :=
      { token := "7_1", key := "order", confs := [0, 1, 2], opts := {},
        redLock := ⟨⟨50000000, 0⟩, [0, 1, 2].map fun i => newRedisLock "7_1" "order" i {}⟩,
        newRedLock_eq := rfl }
    let outcome : ℕ → Outcome := fun n => ⟨n = 0, 60000000⟩
    let (ok, a) := cl.redLock.lock (fun _ _ => none) outcome
    ok = false ∧ (a.nodes 0 cl.lockKey).get = some cl.token ∧ a.dogs = [0] ∧
      ¬ cl.Released (fun _ _ => none) outcome := by
  refine ⟨by decide +kernel, by decide +kernel, by decide +kernel, ?_⟩
  intro h
  exact absurd (h (by decide +kernel)).2 (by decide +kernel)

end Yukino.Locks
