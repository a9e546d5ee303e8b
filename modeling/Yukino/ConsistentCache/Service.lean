import Yukino.Lib.Redis
import Yukino.Lib.Runs

set_option autoImplicit false

/-!
# The cache-aside service of `components/consistent_cache`

`Put` sets a flag that keeps readers from filling the cache, deletes the cached value, writes the
database, and afterwards lets the flag expire soon. `Get` reads the cache, or the database, and
then fills the cache unless the flag is set.

## Main definitions

* `State`, `Event`, `step` —
  calls of `Put` and `Get` on one key, one operation on the cache or the database at a time.

## Design

The operations on the cache and the database are atomic, and each may be lost or unanswered
(`Redis.Fate`). The time to live of the flag and of the cached value is left open: both may lapse
at any time. The flag knows whether it still has the expiry of its `Disable` or that of an
`Enable`, and then which calls of `Get` were active at that moment.

A call is named by its number. `Enable` runs in a goroutine that `Put` starts when it returns, so
the model counts these goroutines.
-/

namespace Yukino.ConsistentCache

open Redis (Fate)

def NullData : String := "Err_Syntax_Null_Data"

/-- Where a call of `Put` is. -/
inductive PutPhase (V : Type)
  | called (obj : V)
  | disabled (obj : V)
  | deleted (obj : V)
  | returned

/-- Where a call of `Get` is. -/
inductive GetPhase
  | called
  | missed
  /-- It has this value from the database, to put into the cache. -/
  | read (value : String)
  | returned
  deriving DecidableEq

/-- A call of `Get`, and how many writes of the database there were when it began. -/
structure Get where
  began : ℕ
  phase : GetPhase := .called

/-- The key `Enable_Lock_Key_`. -/
inductive Flag
  | unset
  /-- With the expiry that `Disable` gave it. -/
  | disabled
  /-- With the expiry that `Enable` gave it, when these calls of `Get` were active. -/
  | scheduled (active : List ℕ)
  deriving DecidableEq

structure State (V : Type) where
  db : Option V
  cache : Option String := none
  flag : Flag := .unset
  puts : List (PutPhase V) := []
  gets : List Get := []
  /-- The goroutines that have not called `Enable` yet. -/
  enables : ℕ := 0
  /-- How often the database was written. -/
  writes : ℕ := 0

inductive Event (V : Type)
  /-- A call of `Put`, and its operations. -/
  | put (obj : V)
  | disable (k : ℕ) (fate : Fate)
  | del (k : ℕ) (fate : Fate)
  | dbPut (k : ℕ) (fate : Fate)
  /-- The goroutine of a `Put`. -/
  | enable (fate : Fate)
  /-- A call of `Get`, and its operations. -/
  | get
  | cacheGet (k : ℕ) (fate : Fate)
  | dbGet (k : ℕ) (fate : Fate)
  | putWhenEnable (k : ℕ) (fate : Fate)
  /-- The flag expires. -/
  | lapse
  /-- The cached value expires. -/
  | expire

def PutPhase.active {V : Type} : PutPhase V → Bool
  | .returned => false
  | _ => true

def Get.active (g : Get) : Bool :=
  g.phase ≠ .returned

namespace State

variable {V : Type} (s : State V)

def setPut (k : ℕ) (phase : PutPhase V) : State V :=
  { s with puts := s.puts.set k phase }

def setGet (k : ℕ) (phase : GetPhase) : State V :=
  { s with gets := s.gets.modify k fun g => { g with phase } }

/-- The calls of `Get` that have not returned. -/
def activeGets : List ℕ :=
  (List.range s.gets.length).filter fun k => s.gets[k]?.any Get.active

/-! ## Operations on the cache and the database -/

/-- `Cache.Disable`: `SETEX` of the flag. -/
def disable (fate : Fate) : State V :=
  match fate with
  | .lost => s
  | _ => { s with flag := .disabled }

/-- `Cache.Enable`: `PEXPIRE` of the flag, which does nothing if it is not there. -/
def enable (fate : Fate) : State V :=
  match fate with
  | .lost => s
  | _ => match s.flag with
    | .unset => s
    | _ => { s with flag := .scheduled s.activeGets }

/-- `Cache.Del`. -/
def del (fate : Fate) : State V :=
  match fate with
  | .lost => s
  | _ => { s with cache := none }

/-- `DB.Put`. -/
def dbPut (obj : V) (fate : Fate) : State V :=
  match fate with
  | .lost => s
  | _ => { s with db := some obj, writes := s.writes + 1 }

/-- `LuaCheckEnableAndWriteCache`. -/
def putWhenEnable (value : String) (fate : Fate) : State V :=
  match fate with
  | .lost => s
  | _ => match s.flag with
    | .unset => { s with cache := some value }
    | _ => s

end State

/-- What `Get` puts into the cache for a value of the database: `Object.Write` may fail. -/
def cacheValue {V : Type} (write : V → Option String) : Option V → Option String
  | none => some NullData
  | some obj => write obj

section Step

variable {V : Type} (write : V → Option String)

/-- `Put` returns, and its deferred function starts the goroutine. -/
def returnPut (s : State V) (k : ℕ) : State V :=
  { s.setPut k .returned with enables := s.enables + 1 }

/-- The step that an event is, if it can be taken. -/
def step (s : State V) : Event V → Option (State V)
  | .put obj => some { s with puts := s.puts ++ [.called obj] }
  | .disable k fate =>
    match s.puts[k]? with
    -- after an error, `Put` returns without the deferred function
    | some (.called obj) => some
      ((s.disable fate).setPut k (if fate = .answered then .disabled obj else .returned))
    | _ => none
  | .del k fate =>
    match s.puts[k]? with
    | some (.disabled obj) =>
      if fate = .answered then some ((s.del fate).setPut k (.deleted obj))
      else some (returnPut (s.del fate) k)
    | _ => none
  | .dbPut k fate =>
    match s.puts[k]? with
    | some (.deleted obj) => some (returnPut (s.dbPut obj fate) k)
    | _ => none
  | .enable fate =>
    if 0 < s.enables then some { s.enable fate with enables := s.enables - 1 } else none
  | .get => some { s with gets := s.gets ++ [{ began := s.writes }] }
  | .cacheGet k fate =>
    match s.gets[k]? with
    | some ⟨_, .called⟩ => some
      (s.setGet k (if fate = .answered ∧ s.cache = none then .missed else .returned))
    | _ => none
  | .dbGet k fate =>
    match s.gets[k]? with
    | some ⟨_, .missed⟩ => some (s.setGet k
      (match cacheValue write s.db with
      | some value => if fate = .answered then .read value else .returned
      | none => .returned))
    | _ => none
  | .putWhenEnable k fate =>
    match s.gets[k]? with
    | some ⟨_, .read value⟩ => some ((s.putWhenEnable value fate).setGet k .returned)
    | _ => none
  | .lapse =>
    match s.flag with
    | .unset => none
    | _ => some { s with flag := .unset }
  | .expire => some { s with cache := none }

end Step

end Yukino.ConsistentCache
