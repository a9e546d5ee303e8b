import Mathlib

set_option autoImplicit false

/-!
# Execution times of the timers of `components/timer`

The cron parser lists the activations of an expression between two instants. `EnableTimer` creates
tasks for those up to the end of a window, and each pass of the migrator for those of the next one.

## Main definitions

* `Schedule` — the schedules of the cron library, as it documents them.
* `nextsBetween`, `nextsBefore` — the cron parser.
* `enableTimer`, `migrate` — the execution times of the tasks that are
  created.

## Design

An instant is a number of nanoseconds. The location has a fixed offset, so that an hour starts
where the instant in that location is a multiple of one. The loop of `nextsBetween` ends since
`Next` is later than its argument.
-/

namespace Yukino.Timer

/-! ## The cron parser -/

/-- A schedule: `Next` of an instant is the least activation after it, or the zero time if there is
none. -/
structure Schedule where
  activation : ℤ → Prop
  next : ℤ → Option ℤ
  isLeast_of_next : ∀ {t u}, next t = some u → IsLeast {x | activation x ∧ t < x} u
  not_of_next : ∀ {t}, next t = none → ∀ x, activation x → ¬ t < x

inductive NextsError
  /-- `end can not earlier than start` -/
  | endBeforeStart (start finish : ℤ)
  /-- The error of `ParseStandard`. -/
  | parse (err : String)
  /-- `fail to parse time from cron` -/
  | zeroTime (expr : String)

/-- The loop of `NextsBetween`. -/
def nextsLoop (schedule : Schedule) (expr : String) (finish cur : ℤ) :
    Except NextsError (List ℤ) :=
  if cur < finish then
    match _h : schedule.next cur with
    | none => .error (.zeroTime expr)
    | some next =>
      if next < finish then (nextsLoop schedule expr finish next).map (next :: ·) else .ok []
  else .ok []
termination_by (finish - cur).toNat
decreasing_by
  have hlt : cur < next := (schedule.isLeast_of_next _h).1.2
  omega

variable (parseStandard : String → Except String Schedule)

def nextsBetween (expr : String) (start finish : ℤ) : Except NextsError (List ℤ) :=
  if finish < start then .error (.endBeforeStart start finish)
  else match parseStandard expr with
    | .error err => .error (.parse err)
    | .ok schedule => nextsLoop schedule expr finish start

/-- `NextsBefore`, which looks at the clock itself. -/
def nextsBefore (expr : String) (now finish : ℤ) : Except NextsError (List ℤ) :=
  nextsBetween parseStandard expr now finish

/-! ## Windows -/

def minute : ℤ := 60000000000

def hour : ℤ := 3600000000000

/-- The time zone, and the configuration of the migrator, whose ticker needs a positive step. -/
structure Config where
  offset : ℤ
  migrateStepMinutes : ℤ
  step_pos : 0 < migrateStepMinutes

variable (cfg : Config)

def Config.step : ℤ :=
  cfg.migrateStepMinutes * minute

def getStartHour (t : ℤ) : ℤ :=
  t - (t + cfg.offset) % hour

def getForwardTwoMigrateStepEnd (cur diff : ℤ) : ℤ :=
  getStartHour cfg (cur + diff)

/-- The end of the window of `EnableTimer`. -/
def enableEnd (start : ℤ) : ℤ :=
  getForwardTwoMigrateStepEnd cfg start (2 * cfg.step)

/-- The execution times of the tasks that `EnableTimer` creates; it starts at `start`, and
`NextsBefore` looks at the clock at `now`. -/
def enableTimer (expr : String) (start now : ℤ) : Except NextsError (List ℤ) :=
  nextsBefore parseStandard expr now (enableEnd cfg start)

/-- The window of a pass of the migrator. -/
def migrateStart (now : ℤ) : ℤ :=
  getStartHour cfg (now + cfg.step)

def migrateEnd (now : ℤ) : ℤ :=
  getStartHour cfg (now + 2 * cfg.step)

/-- The execution times of the tasks that a pass of the migrator creates for a timer; the error of
`NextsBetween` is dropped. -/
def migrate (expr : String) (now : ℤ) : List ℤ :=
  match nextsBetween parseStandard expr (migrateStart cfg now) (migrateEnd cfg now) with
  | .ok nexts => nexts
  | .error _ => []

end Yukino.Timer
