import Mathlib.Data.Finmap
import Yukino.Lib.Redis

set_option autoImplicit false

/-!
# The time wheel of `components/time_wheel` that is kept in Redis

Tasks are sharded by the minute of their execution: every minute has a sorted set of the
marshalled tasks, with the second of execution as the score, and a set of the keys of removed
tasks. A poll takes what is due from the sets of its own minute.

## Main definitions

* `RTimeWheel.addTask`, `RTimeWheel.removeTask`, `RTimeWheel.getExecutableTasks` — the three
  operations, each one Lua script.
* `RTimeWheel.run` — sequences of them.
* `RTimeWheel.sameMinute` — an instant and a poll in the same minute.

## Main results

* `RTimeWheel.due_poll_returns_in_minute` — the first due poll returns a task if it falls into the
  minute of the task, and only then.
* `RTimeWheel.task_lost_at_minute_end` — with polls a second apart, a task of the last second of a
  minute is lost.

## Design

A `time.Time` is its Unix time in nanoseconds and its `Location`, and a location is the offset
in seconds that it has at a Unix second. The text `2006-01-02-15:04` of an instant is the
number of the minute on the clock of its location, which determines it. A script runs at an
instant `clock` (in seconds) of the Redis server, which only the time to live of a set of
removed keys depends on. `json.Marshal` and `json.Unmarshal` are a `Codec`: a task comes back
with its own fields, apart from `Req`, whose values of type `any` come back in the form that
JSON has for them.
-/

namespace Yukino.TimeWheel.RTimeWheel

open Redis List Function AList

/-- A `time.Location`: the offset to UTC, in seconds, at each Unix second. -/
abbrev Location := ℤ → ℤ

structure Time where
  /-- Nanoseconds since the Unix epoch. -/
  ns : ℤ
  location : Location

/-- `t.Unix()`. -/
def Time.unix (t : Time) : ℤ := t.ns / 1000000000

/-- The clock of the location of `t`, in seconds. -/
def Time.wall (t : Time) : ℤ := t.unix + t.location t.unix

/-- `time.Date(.., loc)` for a clock reading, as a Unix second. The offset is looked up as if
the reading were in UTC, and once more at the second that this gives. -/
def date (loc : Location) (wall : ℤ) : ℤ := wall - loc (wall - loc wall)

/-- `GetTimeMinuteStr(t)`. -/
def getTimeMinuteStr (t : Time) : ℤ := t.wall / 60

/-- `GetTimeSecond(t).Unix()`, where `t` is in the location `time.Local`. -/
def getTimeSecond (t : Time) : ℤ := date t.location t.wall

/-- `t.Truncate(time.Minute).Unix()`. -/
def truncateMinute (t : Time) : ℤ := t.unix / 60 * 60

/-- `RTaskElement`, with `ρ` for the values of `Req`. -/
structure RTaskElement (ρ : Type) where
  key : String := ""
  callbackURL : String
  method : String
  req : ρ
  header : Option (Finmap fun _ : String => String) := none

/-- `json.Marshal`, which may fail, and `json.Unmarshal` for tasks. -/
structure Codec (ρ : Type) where
  marshal : RTaskElement ρ → Option String
  unmarshal : String → Option (RTaskElement ρ)
  /-- What a value of `Req` is read back as. -/
  reread : ρ → ρ
  unmarshal_marshal : ∀ task body, marshal task = some body →
    unmarshal body = some { task with req := reread task.req }

/-- What the scripts read and write, by minutes. -/
structure Store where
  /-- The keys `yukino_time_wheel_task_{minute}`. -/
  tasks : ℤ → ZSet := fun _ => ∅
  /-- The keys `yukino_time_wheel_delete_set_{minute}`. -/
  deleteSets : ℤ → TSet := fun _ => {}

/-- The script `LuaAddTasks`. -/
def luaAddTasks (r : Store) (clock : ℤ) (minute score : ℤ) (task taskKey : String) : Store :=
  { deleteSets :=
      update r.deleteSets minute ((r.deleteSets minute).srem clock taskKey)
    tasks := update r.tasks minute ((r.tasks minute).zadd score task) }

/-- The script `LuaDeleteTask`. -/
def luaDeleteTask (r : Store) (clock : ℤ) (minute : ℤ) (taskKey : String) : Store :=
  let s := (r.deleteSets minute).sadd clock taskKey
  let s := if s.members.card = 1 then s.expire clock 120 else s
  { r with deleteSets := update r.deleteSets minute s }

/-- The script `LuaZrangeTasks`: the removed keys and the tasks of the range, which are
taken out. -/
def luaZrangeTasks (r : Store) (clock : ℤ) (minute score1 score2 : ℤ) :
    Store × Finset String × List String :=
  ({ r with tasks := update r.tasks minute ((r.tasks minute).zremrange score1 score2) },
    ((r.deleteSets minute).live clock).members, (r.tasks minute).zrange score1 score2)

variable {ρ : Type}

def addTaskPreCheck (task : Option (RTaskElement ρ)) : Except String Unit :=
  match task with
  | none => .error "nil task"
  | some task =>
    if task.method ≠ "GET" ∧ task.method ≠ "POST" then
      .error ("invalid method: " ++ task.method)
    else if ¬ task.callbackURL.startsWith "http://" ∧ ¬ task.callbackURL.startsWith "https://" then
      .error ("invalid url: " ++ task.callbackURL)
    else .ok ()

/-- `AddTask(ctx, key, task, executeAt)`. -/
def addTask (codec : Codec ρ) (r : Store) (clock : ℤ) (key : String)
    (task : Option (RTaskElement ρ)) (executeAt : Time) : Except String Store := do
  addTaskPreCheck task
  match task with
  | none => .error "nil task"
  | some task =>
    match codec.marshal { task with key := key } with
    | none => .error ("marshal task " ++ key)
    | some body =>
      .ok (luaAddTasks r clock (getTimeMinuteStr executeAt) executeAt.unix body key)

/-- `RemoveTask(ctx, key, executeAt)`. -/
def removeTask (r : Store) (clock : ℤ) (key : String) (executeAt : Time) : Store :=
  luaDeleteTask r clock (getTimeMinuteStr executeAt) key

/-- `getExecutableTasks(ctx)` at the instant `now`. -/
def getExecutableTasks (codec : Codec ρ) (r : Store) (clock : ℤ) (now : Time) :
    Store × List (RTaskElement ρ) :=
  let (r, deletedSet, replies) :=
    luaZrangeTasks r clock (getTimeMinuteStr now) (truncateMinute now) (getTimeSecond now)
  (r, (replies.filterMap codec.unmarshal).filter fun task => task.key ∉ deletedSet)

/-- A call by some client, with the instant of the server at which its script runs. -/
inductive Event (ρ : Type)
  | addTask (clock : ℤ) (key : String) (task : Option (RTaskElement ρ)) (executeAt : Time)
  | removeTask (clock : ℤ) (key : String) (executeAt : Time)
  | poll (clock : ℤ) (now : Time)

/-- The store after a call; one that returns an error leaves it as it is. -/
def step (codec : Codec ρ) (r : Store) : Event ρ → Store
  | .addTask clock key task executeAt =>
    match addTask codec r clock key task executeAt with
    | .ok r => r
    | .error _ => r
  | .removeTask clock key executeAt => removeTask r clock key executeAt
  | .poll clock now => (getExecutableTasks codec r clock now).1

def run (codec : Codec ρ) (r : Store) (evs : List (Event ρ)) : Store := evs.foldl (step codec) r

/-! ## One step -/

/-- The text that `AddTask` stores, if it returns no error. -/
def text (codec : Codec ρ) (key : String) (task : Option (RTaskElement ρ)) : Option String :=
  match task, addTaskPreCheck task with
  | some task, .ok _ => codec.marshal { task with key := key }
  | _, _ => none

variable {codec : Codec ρ} {key body : String} {task : RTaskElement ρ} {r : Store} {clock : ℤ}
  {now executeAt : Time}

lemma step_addTask_eq (task : Option (RTaskElement ρ)) (executeAt : Time) :
    step codec r (.addTask clock key task executeAt) =
      match text codec key task with
      | some body => luaAddTasks r clock (getTimeMinuteStr executeAt) executeAt.unix body key
      | none => r := by
  cases task with
  | none => rfl
  | some t =>
    cases hcheck : addTaskPreCheck (some t) with
    | error e => simp [step, addTask, text, hcheck, bind, Except.bind]
    | ok u =>
      cases hbody : codec.marshal { t with key := key } <;>
        simp [step, addTask, text, hcheck, hbody, bind, Except.bind]

lemma marshal_of_text {task : Option (RTaskElement ρ)} (h : text codec key task = some body) :
    ∃ t, task = some t ∧ codec.marshal { t with key := key } = some body := by
  unfold text at h
  split at h
  · exact ⟨_, rfl, h⟩
  · cases h

/-- A task is returned by a poll iff it is in the set of the minute, with a score in the range
of the poll, and its key has not been removed. -/
lemma mem_getExecutableTasks :
    task ∈ (getExecutableTasks codec r clock now).2 ↔
      (∃ body score, (r.tasks (getTimeMinuteStr now)).lookup body = some score ∧
        truncateMinute now ≤ score ∧ score ≤ getTimeSecond now ∧
        codec.unmarshal body = some task) ∧
      task.key ∉ ((r.deleteSets (getTimeMinuteStr now)).live clock).members := by
  simp only [getExecutableTasks, luaZrangeTasks, mem_filter, mem_filterMap, ZSet.mem_zrange]
  refine and_congr ?_ decide_eq_true_iff
  constructor
  · rintro ⟨body, ⟨score, hlookup, hlo, hhi⟩, hdecode⟩
    exact ⟨body, score, hlookup, hlo, hhi, hdecode⟩
  · rintro ⟨body, score, hlookup, hlo, hhi, hdecode⟩
    exact ⟨body, ⟨score, hlookup, hlo, hhi⟩, hdecode⟩

/-- `GetTimeSecond` gives the second of `now` itself: not the other one with the same clock
reading, in an hour that the clock of the location goes through twice. -/
def exactSecond (now : Time) : Prop := getTimeSecond now = now.unix

/-- The texts of the minutes are the same, and so are the minutes in UTC. -/
def sameMinute (executeAt now : Time) : Prop :=
  getTimeMinuteStr executeAt = getTimeMinuteStr now ∧ executeAt.unix / 60 = now.unix / 60

/-- A poll at the second of `executeAt` or later has it in its range iff they are in the same
minute of UTC. -/
lemma range_iff (hexact : exactSecond now)
    (hdue : executeAt.unix ≤ now.unix) :
    truncateMinute now ≤ executeAt.unix ∧ executeAt.unix ≤ getTimeSecond now ↔
      executeAt.unix / 60 = now.unix / 60 := by
  unfold truncateMinute
  rw [hexact]
  omega

/-! ## A task that stays stored -/

/-- A call neither removes the task `key` of the minute of `executeAt` nor gives its text
another second in that minute. -/
def Event.keeps (codec : Codec ρ) (key body : String) (executeAt : Time) : Event ρ → Prop
  | .addTask _ key' task at' =>
    getTimeMinuteStr at' = getTimeMinuteStr executeAt →
      (∃ t, task = some t ∧ codec.marshal { t with key := key' } = some body) →
      at'.unix = executeAt.unix
  | .removeTask _ key' at' => ¬ (key' = key ∧ getTimeMinuteStr at' = getTimeMinuteStr executeAt)
  | .poll _ _ => True

/-- A poll before the second of `executeAt`. -/
def Event.early (executeAt : Time) : Event ρ → Prop
  | .poll _ now => now.unix < executeAt.unix ∧ exactSecond now
  | _ => True

/-- The task is stored, and its key is not a removed one. -/
structure Pending (r : Store) (key body : String) (executeAt : Time) : Prop where
  task : (r.tasks (getTimeMinuteStr executeAt)).lookup body = some executeAt.unix
  live : key ∉ (r.deleteSets (getTimeMinuteStr executeAt)).members

lemma pending_luaAddTasks (r : Store) (clock : ℤ) (key body : String) (executeAt : Time) :
    Pending (luaAddTasks r clock (getTimeMinuteStr executeAt) executeAt.unix body key)
      key body executeAt where
  task := by
    simp only [luaAddTasks, update_self]
    exact lookup_insert _
  live := by
    simp only [luaAddTasks, update_self]
    exact TSet.notMem_srem _ _ _

/-- **Proof sketch.** `AddTask` only takes keys out of the sets of removed ones, and changes the
score of the text it adds. `RemoveTask` only adds its own key, and a poll only takes texts with
scores up to its own second. -/
lemma Pending.step
    (h : Pending r key body executeAt) {ev : Event ρ}
    (hkeep : ev.keeps codec key body executeAt) (hearly : ev.early executeAt) :
    Pending (step codec r ev) key body executeAt := by
  cases ev with
  | addTask clock key' task at' =>
    rw [step_addTask_eq]
    cases htext : text codec key' task with
    | none => exact h
    | some body' =>
      by_cases hmin : getTimeMinuteStr executeAt = getTimeMinuteStr at'
      · refine ⟨?_, ?_⟩
        · simp only [luaAddTasks, hmin, update_self, ZSet.zadd]
          rcases eq_or_ne body body' with rfl | hne
          · rw [lookup_insert, hkeep hmin.symm (marshal_of_text htext)]
          · rw [lookup_insert_ne hne, ← hmin]
            exact h.task
        · simp only [luaAddTasks, hmin, update_self]
          intro hmem
          refine h.live ?_
          rw [hmin]
          exact TSet.srem_subset _ _ _ hmem
      · refine ⟨?_, ?_⟩
        · simp only [luaAddTasks, update_of_ne hmin]
          exact h.task
        · simp only [luaAddTasks, update_of_ne hmin]
          exact h.live
  | removeTask clock key' at' =>
    refine ⟨h.task, ?_⟩
    change key ∉ (update r.deleteSets (getTimeMinuteStr at') _ _).members
    by_cases hmin : getTimeMinuteStr executeAt = getTimeMinuteStr at'
    · rw [hmin, update_self]
      have hne : key ≠ key' := fun heq => hkeep ⟨heq.symm, hmin.symm⟩
      have hnot : key ∉ ((r.deleteSets (getTimeMinuteStr at')).sadd clock key').members := by
        intro hmem
        rcases TSet.mem_sadd hmem with heq | hmem
        · exact hne heq
        · exact h.live (by rw [hmin]; exact hmem)
      split
      · exact hnot
      · exact hnot
    · rw [update_of_ne hmin]
      exact h.live
  | poll clock now =>
    refine ⟨?_, h.live⟩
    change (update r.tasks (getTimeMinuteStr now) _ _).lookup body = _
    by_cases hmin : getTimeMinuteStr executeAt = getTimeMinuteStr now
    · rw [hmin, update_self, ZSet.lookup_zremrange, ← hmin]
      refine ⟨h.task, ?_⟩
      obtain ⟨hlt, hexact⟩ := hearly
      rw [hexact]
      omega
    · rw [update_of_ne hmin]
      exact h.task

lemma Pending.run
    (h : Pending r key body executeAt) (evs : List (Event ρ))
    (hkeep : ∀ ev ∈ evs, ev.keeps codec key body executeAt)
    (hearly : ∀ ev ∈ evs, ev.early executeAt) :
    Pending (run codec r evs) key body executeAt := by
  induction evs generalizing r with
  | nil => exact h
  | cons ev evs ih =>
    rw [forall_mem_cons] at hkeep hearly
    exact ih (h.step hkeep.1 hearly.1) hkeep.2 hearly.2

/-! ## Where stored tasks come from -/

/-- A call adds the text `body` to a minute, for the second `score`. -/
def Event.adds (codec : Codec ρ) (minute : ℤ) (body : String) (score : ℤ) (ev : Event ρ) : Prop :=
  ∃ clock key task executeAt, ev = .addTask clock key (some task) executeAt ∧
    codec.marshal { task with key := key } = some body ∧ getTimeMinuteStr executeAt = minute ∧
    executeAt.unix = score

/-- Everything that is stored was added by one of the calls. -/
def Origin (codec : Codec ρ) (r : Store) (evs : List (Event ρ)) : Prop :=
  ∀ minute body score, (r.tasks minute).lookup body = some score →
    ∃ ev ∈ evs, ev.adds codec minute body score

lemma Origin.step {evs : List (Event ρ)}
    (h : Origin codec r evs) (ev : Event ρ) : Origin codec (step codec r ev) (evs ++ [ev]) := by
  have hold : ∀ minute body score, (r.tasks minute).lookup body = some score →
      ∃ ev' ∈ evs ++ [ev], ev'.adds codec minute body score := by
    intro minute body score hlookup
    obtain ⟨ev', hmem, hadds⟩ := h minute body score hlookup
    exact ⟨ev', mem_append_left _ hmem, hadds⟩
  intro minute body score hlookup
  cases ev with
  | addTask clock key task at' =>
    rw [step_addTask_eq] at hlookup
    cases htext : text codec key task with
    | none =>
      rw [htext] at hlookup
      exact hold minute body score hlookup
    | some body' =>
      rw [htext] at hlookup
      by_cases hmin : minute = getTimeMinuteStr at'
      · subst hmin
        simp only [luaAddTasks, update_self, ZSet.zadd] at hlookup
        rcases eq_or_ne body body' with rfl | hne
        · rw [lookup_insert, Option.some.injEq] at hlookup
          obtain ⟨t, rfl, hbody⟩ := marshal_of_text htext
          exact ⟨_, mem_append_right _ (mem_singleton.2 rfl), clock, key, t, at', rfl, hbody, rfl,
            hlookup⟩
        · rw [lookup_insert_ne hne] at hlookup
          exact hold _ body score hlookup
      · simp only [luaAddTasks, update_of_ne hmin] at hlookup
        exact hold minute body score hlookup
  | removeTask clock key at' => exact hold minute body score hlookup
  | poll clock now =>
    change (update r.tasks (getTimeMinuteStr now) _ minute).lookup body = _ at hlookup
    by_cases hmin : minute = getTimeMinuteStr now
    · rw [hmin, update_self, ZSet.lookup_zremrange, ← hmin] at hlookup
      exact hold minute body score hlookup.1
    · rw [update_of_ne hmin] at hlookup
      exact hold minute body score hlookup

lemma Origin.run {evs₀ : List (Event ρ)}
    (h : Origin codec r evs₀) (evs : List (Event ρ)) :
    Origin codec (run codec r evs) (evs₀ ++ evs) := by
  induction evs generalizing r evs₀ with
  | nil =>
    rw [append_nil]
    exact h
  | cons ev evs ih =>
    rw [append_cons]
    exact ih (h.step ev)

lemma origin_empty (codec : Codec ρ) : Origin codec {} [] := by
  intro minute body score hlookup
  cases hlookup

/-- A call adds a task with the key `key`. -/
def Event.addsKey (key : String) : Event ρ → Prop
  | .addTask _ key' _ _ => key' = key
  | _ => False

/-! ## The first due poll -/

/-- **A due task is returned if the poll is in its minute.** `task` is added after any calls
`before`. In the calls `after` nobody removes it, and the polls are at earlier seconds than
`executeAt`. Then a poll at the second of `executeAt` or later returns the task if it is in the
same minute; if no other call adds a task with its key, then it returns the key only if it is
in the same minute.

**Proof sketch.** The task is pending from its addition to the poll, by induction over `after`.
Conversely a returned task was added by some call, and only one has the key. -/
theorem due_poll_returns_in_minute (codec : Codec ρ) (before after : List (Event ρ))
    (clock clock' : ℤ) (key body : String) (task : RTaskElement ρ) (executeAt now : Time)
    (hcheck : addTaskPreCheck (some task) = .ok ())
    (hbody : codec.marshal { task with key := key } = some body)
    (hkeep : ∀ ev ∈ after, ev.keeps codec key body executeAt)
    (hearly : ∀ ev ∈ after, ev.early executeAt)
    (hexact : exactSecond now) (hdue : executeAt.unix ≤ now.unix) :
    let r := run codec {} (before ++ .addTask clock key (some task) executeAt :: after)
    (sameMinute executeAt now →
      { task with key := key, req := codec.reread task.req } ∈
        (getExecutableTasks codec r clock' now).2) ∧
    ((∀ ev ∈ before ++ after, ¬ ev.addsKey key) →
      (∃ t ∈ (getExecutableTasks codec r clock' now).2, t.key = key) →
      sameMinute executeAt now) := by
  intro r
  refine ⟨fun hsame => ?_, fun honly hreturned => ?_⟩
  · have hpending : Pending r key body executeAt := by
      have hr : r = run codec (step codec (run codec {} before)
          (.addTask clock key (some task) executeAt)) after := by
        simp only [r, run, foldl_append, foldl_cons]
      have htext : text codec key (some task) = some body := by
        simp only [text, hcheck, hbody]
      rw [hr, step_addTask_eq, htext]
      exact (pending_luaAddTasks _ _ _ _ _).run after hkeep hearly
    have hrange := (range_iff hexact hdue).2 hsame.2
    rw [mem_getExecutableTasks]
    refine ⟨⟨body, executeAt.unix, ?_, hrange.1, hrange.2,
      codec.unmarshal_marshal _ _ hbody⟩, fun hmem => ?_⟩
    · rw [← hsame.1]
      exact hpending.task
    · refine hpending.live ?_
      rw [hsame.1]
      exact TSet.live_subset _ _ hmem
  · obtain ⟨t, ht, hkey⟩ := hreturned
    obtain ⟨⟨body', score, hlookup, hlo, hhi, hdecode⟩, -⟩ := mem_getExecutableTasks.1 ht
    have horigin := (origin_empty codec).run
      (before ++ .addTask clock key (some task) executeAt :: after)
    obtain ⟨ev, hmem, clock₁, key₁, task₁, at₁, rfl, hbody₁, hmin, hscore⟩ :=
      horigin _ _ _ hlookup
    -- the key comes back from the text, so the call is the one that adds `task`
    have hkey₁ : key₁ = key := by
      have := codec.unmarshal_marshal _ _ hbody₁
      rw [hdecode, Option.some.injEq] at this
      rw [this] at hkey
      exact hkey
    have hcall : at₁ = executeAt := by
      rw [nil_append, mem_append, mem_cons] at hmem
      rcases hmem with hm | heq | hm
      · exact absurd hkey₁ (honly _ (mem_append_left _ hm))
      · injection heq
      · exact absurd hkey₁ (honly _ (mem_append_right _ hm))
    subst hcall hscore
    exact ⟨hmin, (range_iff hexact hdue).1 ⟨hlo, hhi⟩⟩

/-- UTC. -/
def utc : Location := fun _ => 0

/-- A `GET` of one URL. -/
def getTask (key : String) (req : Bool) : RTaskElement Bool :=
  { key, callbackURL := "http://a", method := "GET", req }

def getText (key : String) (req : Bool) : String :=
  "\x7b\"key\":\"" ++ key ++ "\",\"callback_url\":\"http://a\",\"method\":\"GET\",\"req\":" ++
    (if req then "true" else "false") ++ ",\"header\":null\x7d"

/-- The JSON of the tasks `getTask` for two keys. -/
def getCodec : Codec Bool where
  marshal task := if task.key ∈ ["a", "b"] ∧ task.callbackURL = "http://a" ∧ task.method = "GET" ∧
    task.header = none then some (getText task.key task.req) else none
  unmarshal body := (["a", "b"].product [true, false]).findSome? fun (key, req) =>
    if body = getText key req then some (getTask key req) else none
  reread := id
  unmarshal_marshal := by
    intro task body h
    obtain ⟨⟨hkey, hurl, hmethod, hheader⟩, h⟩ := Option.ite_none_right_eq_some.1 h
    obtain ⟨key, callbackURL, method, req, header⟩ := task
    cases h
    cases hurl
    cases hmethod
    cases hheader
    simp only [mem_cons, not_mem_nil, or_false] at hkey
    rcases hkey with rfl | rfl <;> cases req <;> rfl

/-- The instant `ms` milliseconds after the Unix epoch, in UTC. -/
def utcMilli (ms : ℤ) : Time := { ns := ms * 1000000, location := utc }

/-- A task of the second half of a minute, polled twice before it is due. -/
theorem due_poll_returns_in_minute_at_30s :
    sameMinute (utcMilli 30500) (utcMilli 30700) ∧
    getTask "a" true ∈ (getExecutableTasks getCodec (run getCodec {}
      [.addTask 10 "a" (some (getTask "" true)) (utcMilli 30500), .poll 28 (utcMilli 28700),
        .poll 29 (utcMilli 29700)]) 30 (utcMilli 30700)).2 := by
  have hsame : sameMinute (utcMilli 30500) (utcMilli 30700) := ⟨rfl, rfl⟩
  refine ⟨hsame, ?_⟩
  refine (due_poll_returns_in_minute getCodec []
    [.poll 28 (utcMilli 28700), .poll 29 (utcMilli 29700)] 10 30 "a" _ (getTask "" true)
    (utcMilli 30500) (utcMilli 30700) (by decide +kernel) rfl ?_ ?_ rfl (by decide)).1 hsame
  · intro ev hev
    simp only [mem_cons, not_mem_nil, or_false] at hev
    rcases hev with rfl | rfl
    · trivial
    · trivial
  · intro ev hev
    simp only [mem_cons, not_mem_nil, or_false] at hev
    rcases hev with rfl | rfl
    · exact ⟨by decide, rfl⟩
    · exact ⟨by decide, rfl⟩

/-- **A task of the last second of a minute is lost.** The polls are a second apart. The task
for 59.9 s is added at 59.5 s, after the poll at 59.2 s. The next poll, at 60.2 s, looks at the
set of the next minute, and so do all later ones. -/
theorem task_lost_at_minute_end :
    let r := run getCodec {} [.poll 58 (utcMilli 58200), .poll 59 (utcMilli 59200),
      .addTask 59 "a" (some (getTask "" true)) (utcMilli 59900)]
    (utcMilli 59900).unix ≤ (utcMilli 60200).unix ∧
    (r.tasks (getTimeMinuteStr (utcMilli 59900))).lookup (getText "a" true) = some 59 ∧
    (getExecutableTasks getCodec r 60 (utcMilli 60200)).2 = [] := by
  refine ⟨by decide, ?_, ?_⟩
  · decide +kernel
  · exact length_eq_zero_iff.1 (by decide +kernel)

end Yukino.TimeWheel.RTimeWheel
