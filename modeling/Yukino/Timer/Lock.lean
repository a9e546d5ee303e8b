import Yukino.Lib.MachineInt

set_option autoImplicit false

/-!
# The distributed lock of `components/timer`

A `ReentrantDistributeLock` is a key of Redis that holds the token of its owner. The owner may take
the lock again, and `Lock` then only renews the time to live. To see that it is the owner, `Lock`
reads the key without the prefix that `SETNX` and the scripts use, so an owner is refused unless its
token is stored under that other key as well.

## Main definitions

* `Lock.Value`, `Lock.Keys` — the keys of Redis.
* `Lock.lock`, `Lock.unlock`, `Lock.expireLock` — the calls.
* `Lock.Call.Right` — what a call is to do.
* `Lock.Call.met` — the condition on the keys before a call.

## Main results

* `Lock.right_iff_met` — a call does what it is to do if and only if the condition
  holds before it.
* `Lock.reentrant_iff` — the same for all calls of a sequence.

## Design

Redis checks the arguments of a command before it looks at the key. Which times to live `EXPIRE`
accepts depends on its clock, so that is a parameter. No time to live runs out between the calls of
a sequence; `right_iff_met` is about any keys, those after one has run out among them.
-/

namespace Yukino.Timer.Lock

open MachineInt Option

/-! ## Redis -/

/-- What a key holds: a string with its time to live in milliseconds, if it has one, or a value of
another type. -/
inductive Value
  | str (text : String) (ttl : Option ℤ)
  | other
  deriving DecidableEq

abbrev Keys := String → Option Value

namespace Keys

variable (s : Keys) (key : String)

/-- `GET`: an absent key has no text, and a value of another type is an error. -/
def get : Except String (Option String) :=
  match s key with
  | none => .ok none
  | some (.str text _) => .ok (some text)
  | some .other => .error "WRONGTYPE"

/-- The key holds the token. -/
def holds (token : String) : Bool :=
  match s key with
  | some (.str text _) => text == token
  | _ => false

/-- `DEL`, and the number of keys that were deleted. -/
def del : ℤ × Keys :=
  (if (s key).isSome then 1 else 0, Function.update s key none)

/-- `EXPIRE`, and the number of keys it applies to: a time that is not positive deletes the key. -/
def expire (seconds : ℤ) : ℤ × Keys :=
  match s key with
  | some (.str text _) =>
    let renewed := Value.str text (some (seconds * 1000))
    (1, Function.update s key (if 0 < seconds then some renewed else none))
  | some .other => (1, if 0 < seconds then s else Function.update s key none)
  | none => (0, s)

end Keys

/-- `Client.SetNX`: the reply, or an error. The client sends the duration in milliseconds and at
least one of them, and without a duration there is no time to live. -/
def setNX (s : Keys) (key value : String) (expireSeconds : ℤ) : Except String ℤ × Keys :=
  let duration := int64 (expireSeconds * 1000000000)
  if key = "" ∨ value = "" then (.error "redis SET keyNX or value can't be empty", s)
  else if duration < 0 then (.error "ERR invalid expire time in 'set' command", s)
  else match s key with
    | some _ => (.ok 0, s)
    | none =>
      let ttl := if duration = 0 then none else some (max 1 (duration / 1000000))
      (.ok 1, Function.update s key (some (.str value ttl)))

/-- The scripts: a command for the owner of the key. -/
def luaCheckAnd (command : Except String ℤ × Keys) (s : Keys) (key targetToken : String) :
    Except String ℤ × Keys :=
  match s.get key with
  | .error e => (.error e, s)
  | .ok getToken => if getToken ≠ some targetToken then (.ok 0, s) else command

/-- `LuaCheckAndDeleteDistributionLock`. -/
def luaCheckAndDelete (s : Keys) (key : String) : String → Except String ℤ × Keys :=
  luaCheckAnd (.ok (s.del key).1, (s.del key).2) s key

/-- `LuaCheckAndExpireDistributionLock`, with the times to live that `EXPIRE` accepts. -/
def luaCheckAndExpire (accepts : ℤ → Bool) (s : Keys) (key : String) (duration : ℤ) :
    String → Except String ℤ × Keys :=
  luaCheckAnd (if accepts duration then (.ok (s.expire key duration).1, (s.expire key duration).2)
    else (.error "ERR invalid expire time in 'expire' command", s)) s key

/-! ## The lock -/

structure ReentrantDistributeLock where
  key : String
  token : String

/-- The end of a call: an error of the client, or a reply that is not 1. -/
def checked (message : String) (r : Except String ℤ × Keys) : Except String Unit × Keys :=
  (match r.1 with
    | .error e => .error e
    | .ok reply => if reply ≠ 1 then .error message else .ok (), r.2)

section Calls

variable (accepts : ℤ → Bool) (r : ReentrantDistributeLock) (s : Keys)

def getLockKey : String :=
  "FTIMER_LOCK_PREFIX_" ++ r.key

def unlock : Except String Unit × Keys :=
  checked "can not unlock without ownership of lock" (luaCheckAndDelete s (getLockKey r) r.token)

def expireLock (expireSeconds : ℤ) : Except String Unit × Keys :=
  checked "can not expire lock without ownership of lock"
    (luaCheckAndExpire accepts s (getLockKey r) expireSeconds r.token)

def lock (expireSeconds : ℤ) : Except String Unit × Keys :=
  -- the key without the prefix; an absent key reads as the empty string
  match s.get r.key with
  | .error e => (.error e, s)
  | .ok res =>
    if res.getD "" = r.token then expireLock accepts r s expireSeconds
    else checked "lock is acquired by others" (setNX s (getLockKey r) r.token expireSeconds)

end Calls

/-- A call on the lock with a given key, by the owner of a token. -/
inductive Call
  | lock (token : String) (expireSeconds : ℤ)
  | unlock (token : String)
  | expireLock (token : String) (expireSeconds : ℤ)

namespace Call

variable (accepts : ℤ → Bool) (key : String) (s : Keys)

def perform : Call → Except String Unit × Keys
  | .lock token expireSeconds => Lock.lock accepts ⟨key, token⟩ s expireSeconds
  | .unlock token => Lock.unlock ⟨key, token⟩ s
  | .expireLock token expireSeconds => Lock.expireLock accepts ⟨key, token⟩ s expireSeconds

/-- `Lock` succeeds if and only if the lock is free or its caller's, and then it is its caller's.
The other calls of anyone but the owner fail and change nothing. -/
def Right (call : Call) : Prop :=
  let (result, s') := call.perform accepts key s
  match call with
  | .lock token _ =>
    let lockKey := getLockKey ⟨key, token⟩
    (result = .ok () ↔ s lockKey = none ∨ s.holds lockKey token = true) ∧
      (result = .ok () → s'.holds lockKey token = true)
  | .unlock token | .expireLock token _ => s.holds (getLockKey ⟨key, token⟩) token = false →
      (∃ e, result = .error e) ∧ s' = s

/-- The condition on a call of `Lock`. If the lock is free, the key without the prefix does not
hold the token, and the arguments of `SETNX` are good. If the lock is the caller's, the key without
the prefix holds the token too, and the time to live is positive. -/
def met : Call → Bool
  | .lock token expireSeconds =>
    let lockKey := getLockKey ⟨key, token⟩
    let res := (s.get key).toOption.map (·.getD "")
    if s lockKey = none then
      res.isSome && res ≠ some token && token ≠ "" && 0 ≤ int64 (expireSeconds * 1000000000)
    else if s.holds lockKey token then
      res = some token && accepts expireSeconds && 0 < expireSeconds
    else true
  | _ => true

/-- The keys after some calls. -/
def after (calls : List Call) : Keys :=
  calls.foldl (fun s call => (call.perform accepts key s).2) s

end Call

/-! ## One call -/

section Correct

variable {accepts : ℤ → Bool} {key k token message : String} {s : Keys} {seconds : ℤ}

lemma holds_iff : s.holds k token = true ↔ ∃ ttl, s k = some (.str token ttl) := by
  unfold Keys.holds
  split <;> simp_all

lemma get_eq_iff_holds : s.get k = .ok (some token) ↔ s.holds k token = true := by
  unfold Keys.get Keys.holds
  split <;> simp_all

lemma checked_ok_iff {r : Except String ℤ × Keys} :
    (checked message r).1 = .ok () ↔ r.1 = .ok 1 := by
  unfold checked
  split <;> simp_all

/-- The scripts do nothing for anyone but the owner. -/
lemma luaCheckAnd_of_not_holds {command : Except String ℤ × Keys} (h : s.holds k token = false) :
    (∃ e, (checked message (luaCheckAnd command s k token)).1 = .error e) ∧
      (checked message (luaCheckAnd command s k token)).2 = s := by
  have hget : s.get k ≠ .ok (some token) := by simp [get_eq_iff_holds, h]
  unfold luaCheckAnd
  cases hs : s.get k with
  | error e => exact ⟨⟨e, rfl⟩, rfl⟩
  | ok getToken =>
    have hne : getToken ≠ some token := fun heq => hget (by rw [hs, heq])
    simp [hne, checked]

lemma luaCheckAnd_of_holds (command : Except String ℤ × Keys) (h : s.holds k token = true) :
    luaCheckAnd command s k token = command := by
  simp [luaCheckAnd, get_eq_iff_holds.2 h]

/-- The owner renews its lock, with a time to live that `EXPIRE` accepts; one that is not positive
frees it. -/
lemma expireLock_of_holds (h : s.holds (getLockKey ⟨key, token⟩) token = true) :
    (expireLock accepts ⟨key, token⟩ s seconds).1 = .ok () ∧
        (expireLock accepts ⟨key, token⟩ s seconds).2.holds (getLockKey ⟨key, token⟩) token = true ↔
      accepts seconds = true ∧ 0 < seconds := by
  obtain ⟨ttl, hkey⟩ := holds_iff.1 h
  unfold expireLock luaCheckAndExpire
  rw [luaCheckAnd_of_holds _ h]
  by_cases hacc : accepts seconds = true <;> by_cases hpos : 0 < seconds <;>
    simp [hacc, hpos, checked, Keys.expire, hkey, Keys.holds]

/-- `SETNX` succeeds on a free key with good arguments. -/
lemma setNX_ok_iff (hk : k ≠ "") : (setNX s k token seconds).1 = .ok 1 ↔
    s k = none ∧ token ≠ "" ∧ 0 ≤ int64 (seconds * 1000000000) := by
  dsimp only [setNX]
  split_ifs with hempty hneg
  · simp_all
  · simp [hneg]
  all_goals cases h : s k <;> simp_all

lemma holds_setNX (h : (setNX s k token seconds).1 = .ok 1) :
    (setNX s k token seconds).2.holds k token = true := by
  dsimp only [setNX] at h ⊢
  split_ifs at h ⊢ <;> cases hk : s k <;> simp_all [Keys.holds]

lemma getLockKey_ne_empty (r : ReentrantDistributeLock) : getLockKey r ≠ "" := by
  unfold getLockKey
  simp

lemma holds_of_free (h : s k = none) : s.holds k token = false := by
  simp [Keys.holds, h]

/-- **A call is right if and only if the condition holds before it.**

**Proof sketch.** `Unlock` and `ExpireLock` are right since the scripts look at the token. `Lock`
is `ExpireLock` if the key without the prefix holds the token, and else `SETNX`. Of a lock that
somebody else holds both fail; a free one only `SETNX` can take, and only `ExpireLock` succeeds for
its owner. -/
theorem right_iff_met (call : Call) : call.Right accepts key s ↔ call.met accepts key s = true := by
  cases call with
  | unlock | expireLock => exact iff_of_true luaCheckAnd_of_not_holds rfl
  | lock token seconds =>
    dsimp only [Call.Right, Call.met, Call.perform]
    cases hget : s.get key with
    | error e =>
      have hlock : lock accepts ⟨key, token⟩ s seconds = (.error e, s) := by simp [lock, hget]
      rw [hlock]
      simp [Except.toOption]
    | ok res =>
      simp only [lock, hget]
      by_cases hres : res.getD "" = token
      · cases hheld : s.holds (getLockKey ⟨key, token⟩) token with
        | true =>
          have howner : _ ∧ _ ↔ accepts seconds = true ∧ 0 < seconds := expireLock_of_holds hheld
          have hsome : s (getLockKey ⟨key, token⟩) ≠ none := fun h => by
            simp [holds_of_free h] at hheld
          simp only [hsome, or_true, iff_true, if_false, if_true, Except.toOption, map_some,
            hres, decide_true, Bool.true_and, Bool.and_eq_true, decide_eq_true_eq, ← howner]
          exact ⟨fun h => ⟨h.1, h.2 h.1⟩, fun h => ⟨h.1, fun _ => h.2⟩⟩
        | false =>
          have hfails : (expireLock accepts ⟨key, token⟩ s seconds).1 ≠ .ok () := by
            obtain ⟨⟨e, he⟩, -⟩ := luaCheckAnd_of_not_holds hheld
            rw [expireLock, luaCheckAndExpire, he]
            nofun
          simp [hfails, Except.toOption, hres]
      · have hset : (setNX s (getLockKey ⟨key, token⟩) token seconds).1 = .ok 1 ↔ _ :=
          setNX_ok_iff (getLockKey_ne_empty _)
        rw [if_neg hres, checked_ok_iff]
        by_cases h : s (getLockKey ⟨key, token⟩) = none
        · simp only [hset, h, Except.toOption, map_some, isSome_some, true_and,
            true_or, iff_true, if_true, ne_eq, some.injEq, hres, not_false_eq_true,
            Bool.and_eq_true, decide_eq_true_eq]
          exact and_iff_left_of_imp fun hargs _ => holds_setNX (hset.2 ⟨h, hargs⟩)
        · simp [hset, h, Except.toOption, hres]

/-- **All calls of a sequence are right if and only if the condition holds before each of them.** -/
theorem reentrant_iff (accepts : ℤ → Bool) (key : String) (s : Keys) (calls : List Call) :
    (∀ before call rest, calls = before ++ call :: rest →
        call.Right accepts key (Call.after accepts key s before)) ↔
      ∀ before call rest, calls = before ++ call :: rest →
        call.met accepts key (Call.after accepts key s before) = true := by
  simp only [right_iff_met]

end Correct

/-- The owner of the lock cannot take it again. -/
theorem owner_refused :
    let s := Call.after (fun _ => true) "k" (fun _ => none) [.lock "t" 10]
    s.holds (getLockKey ⟨"k", "t"⟩) "t" = true ∧
      (lock (fun _ => true) ⟨"k", "t"⟩ s 10).1 = .error "lock is acquired by others" ∧
        ¬ (Call.lock "t" 10).Right (fun _ => true) "k" s := by
  refine ⟨by decide +kernel, by rfl, ?_⟩
  rw [right_iff_met]
  decide +kernel

end Yukino.Timer.Lock
