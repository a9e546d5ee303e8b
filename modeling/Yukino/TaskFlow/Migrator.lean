import Yukino.Timer.Windows

set_option autoImplicit false

/-!
# The migrator of `apps/task_flow`

A pass of the migrator inserts an execution for every activation of every enabled task in a window
around the present. The windows overlap, and an execution whose key is in the table is not inserted
again.

## Main definitions

* `insertPending`, `registerFire`, `materializeTask`, `materialize` — a pass.
* `Adds` — the rows that a part of a pass inserts, or finds.

## Main results

* `adds_materializeLoop` — the loop over the activations of a window.
* `materialized_once` — passes whose windows meet insert one execution for each activation.

## Design

An instant is a number of nanoseconds. The key `sched:<task>:<seconds>` is the pair of its numbers.
The database answers, and the context is not cancelled. The time wheel, `next_fire_at` and the
other columns of a row are left out, since no insertion depends on them.
-/

namespace Yukino.TaskFlow

open List Timer

/-! ## A pass -/

inductive FireKey
  | sched (taskID : ℕ) (unix : ℤ)
  /-- The key of a condition or of a manual trigger. -/
  | other (text : String)
  deriving DecidableEq

structure Execution where
  taskID : ℕ
  fireKey : FireKey
  fireAt : ℤ

structure ScheduledTask where
  id : ℕ
  cronExpr : String
  timezone : String
  createdAt : ℤ

def second : ℤ := 1000000000

def schedFireKey (taskID : ℕ) (fireAt : ℤ) : FireKey :=
  .sched taskID (fireAt / second)

/-- On a conflict of `fire_key` nothing is done. -/
def insertPending (table : List Execution) (exec : Execution) : List Execution :=
  if exec.fireKey ∈ table.map (·.fireKey) then table else table ++ [exec]

def candidate (task : ScheduledTask) (fireAt : ℤ) : Execution :=
  ⟨task.id, schedFireKey task.id fireAt, fireAt⟩

def registerFire (table : List Execution) (task : ScheduledTask) (fireAt : ℤ) : List Execution :=
  insertPending table (candidate task fireAt)

/-- The loop of `materializeTask`. -/
def materializeLoop (task : ScheduledTask) (schedule : Schedule) (windowEnd cursor : ℤ)
    (table : List Execution) : List Execution :=
  match _h : schedule.next cursor with
  | none => table
  | some fireAt =>
    if windowEnd < fireAt then table
    else materializeLoop task schedule windowEnd fireAt (registerFire table task fireAt)
termination_by (windowEnd - cursor).toNat
decreasing_by
  have hlt : cursor < fireAt := (schedule.isLeast_of_next _h).1.2
  omega

structure Config where
  migrateStepMinutes : ℤ
  overdueRecoverMinutes : ℤ

def Config.step (cfg : Config) : ℤ :=
  cfg.migrateStepMinutes * minute

def Config.overdue (cfg : Config) : ℤ :=
  cfg.overdueRecoverMinutes * minute

/-- The instant of a pass, and the enabled tasks. -/
structure Pass where
  now : ℤ
  tasks : List ScheduledTask
  /-- `id` is the primary key. -/
  eq_of_id : ∀ s ∈ tasks, ∀ t ∈ tasks, s.id = t.id → s = t

/- `cronx.Parse`, whose `Next` looks at an instant in the location of the time zone. -/
variable (parse : String → String → Except String Schedule) (cfg : Config)

def materializeTask (recoverStart windowEnd : ℤ) (table : List Execution) (task : ScheduledTask) :
    List Execution :=
  match parse task.cronExpr task.timezone with
  | .error _ => table
  | .ok schedule =>
    let cursor := if recoverStart < task.createdAt then task.createdAt else recoverStart
    materializeLoop task schedule windowEnd cursor table

def materialize (table : List Execution) (pass : Pass) : List Execution :=
  pass.tasks.foldl (materializeTask parse (pass.now - cfg.overdue) (pass.now + cfg.step)) table

/-! ## What a pass inserts -/

/-- The rows that are inserted satisfy `R`, and the key of each row of `R` is then there. -/
structure Adds (R : Execution → Prop) (table table' : List Execution) : Prop where
  inserted : ∃ rows, table' = table ++ rows ∧ ∀ row ∈ rows, R row
  key : ∀ row, R row → row.fireKey ∈ table'.map (·.fireKey)
  nodup : (table.map (·.fireKey)).Nodup → (table'.map (·.fireKey)).Nodup

section Adds

variable {R R' : Execution → Prop} {table table' table'' : List Execution}

lemma Adds.of_none (h : ∀ row, ¬ R row) : Adds R table table :=
  ⟨⟨[], (append_nil _).symm, nofun⟩, fun row hrow => absurd hrow (h row), id⟩

lemma Adds.trans (h : Adds R table table') (h' : Adds R' table' table'') :
    Adds (fun row => R row ∨ R' row) table table'' := by
  obtain ⟨⟨xs, rfl, hxs⟩, hkey, hnodup⟩ := h
  obtain ⟨⟨ys, rfl, hys⟩, hkey', hnodup'⟩ := h'
  refine ⟨⟨xs ++ ys, append_assoc .., fun row hrow => ?_⟩, ?_, hnodup' ∘ hnodup⟩
  · exact (mem_append.1 hrow).imp (hxs row) (hys row)
  · rintro row (hrow | hrow)
    · rw [map_append]
      exact mem_append_left _ (hkey row hrow)
    · exact hkey' row hrow

lemma adds_insertPending (table : List Execution) (exec : Execution) :
    Adds (· = exec) table (insertPending table exec) := by
  unfold insertPending
  split_ifs with h
  · exact ⟨⟨[], (append_nil _).symm, nofun⟩, fun row hrow => hrow ▸ h, id⟩
  · refine ⟨⟨[exec], rfl, fun row hrow => mem_singleton.1 hrow⟩, ?_, fun hnodup => ?_⟩
    · simp
    · rw [map_append, map_singleton, ← concat_eq_append]
      exact hnodup.concat h

lemma adds_foldl {α : Type} {f : List Execution → α → List Execution} {R : α → Execution → Prop}
    (h : ∀ table a, Adds (R a) table (f table a)) (l : List α) (table : List Execution) :
    Adds (fun row => ∃ a ∈ l, R a row) table (l.foldl f table) := by
  induction l generalizing table with
  | nil => exact .of_none (by simp)
  | cons a l ih => simpa using (h table a).trans (ih _)

end Adds

/-- The activations after `lo`, up to `hi`. -/
def Due (schedule : Schedule) (lo hi x : ℤ) : Prop :=
  schedule.activation x ∧ lo < x ∧ x ≤ hi

lemma adds_materializeLoop (task : ScheduledTask) (schedule : Schedule) (windowEnd cursor : ℤ)
    (table : List Execution) :
    Adds (fun row => ∃ x, Due schedule cursor windowEnd x ∧ row = candidate task x) table
      (materializeLoop task schedule windowEnd cursor table) := by
  fun_induction materializeLoop task schedule windowEnd cursor table with
  | case1 cursor table hnone =>
    exact .of_none fun row ⟨x, hx, _⟩ => schedule.not_of_next hnone x hx.1 hx.2.1
  | case2 cursor table fireAt hnext hout =>
    refine .of_none fun row ⟨x, ⟨hact, hlo, hhi⟩, _⟩ => ?_
    exact hhi.not_gt (hout.trans_le ((schedule.isLeast_of_next hnext).2 ⟨hact, hlo⟩))
  | case3 cursor table fireAt hnext hin ih =>
    obtain ⟨⟨hact, hlt⟩, hleast⟩ := schedule.isLeast_of_next hnext
    have hdue : ∀ x, Due schedule cursor windowEnd x ↔
        x = fireAt ∨ Due schedule fireAt windowEnd x := by
      intro x
      constructor
      · rintro ⟨hx, hlo, hhi⟩
        exact (eq_or_lt_of_le (hleast ⟨hx, hlo⟩)).imp Eq.symm fun hlt => ⟨hx, hlt, hhi⟩
      · rintro (rfl | ⟨hx, hlo, hhi⟩)
        · exact ⟨hact, hlt, not_lt.1 hin⟩
        · exact ⟨hx, hlt.trans hlo, hhi⟩
    simpa [hdue, or_and_right, exists_or] using (adds_insertPending _ _).trans ih

/-- The activations in the window of a pass. -/
def Pass.Fires (pass : Pass) (task : ScheduledTask) (schedule : Schedule) (x : ℤ) : Prop :=
  Due schedule (max (pass.now - cfg.overdue) task.createdAt) (pass.now + cfg.step) x

lemma adds_materialize (table : List Execution) (pass : Pass) :
    Adds (fun row => ∃ task ∈ pass.tasks, ∃ schedule,
        parse task.cronExpr task.timezone = .ok schedule ∧
        ∃ x, pass.Fires cfg task schedule x ∧ row = candidate task x)
      table (materialize parse cfg table pass) := by
  refine adds_foldl (fun table task => ?_) pass.tasks table
  unfold materializeTask
  cases hparse : parse task.cronExpr task.timezone with
  | error err => exact .of_none (by simp)
  | ok schedule =>
    simpa [Pass.Fires, max_def_lt] using adds_materializeLoop task schedule _ _ table

/-! ## Passes one after the other -/

/-- A pass that comes after another, and not too late. -/
def Pass.Follows (p q : Pass) : Prop :=
  p.now < q.now ∧ q.now - p.now ≤ cfg.step + cfg.overdue

variable {cfg}

/-- The windows of the passes cover one window. -/
lemma exists_fires_iff (task : ScheduledTask) (schedule : Schedule) {first : Pass}
    {rest : List Pass} (hgaps : (first :: rest).IsChain (Pass.Follows cfg)) :
    first.now ≤ ((first :: rest).getLast (cons_ne_nil _ _)).now ∧
    ∀ x, (∃ p ∈ first :: rest, p.Fires cfg task schedule x) ↔
      Due schedule (max (first.now - cfg.overdue) task.createdAt)
        (((first :: rest).getLast (cons_ne_nil _ _)).now + cfg.step) x := by
  induction rest generalizing first with
  | nil => simp [Pass.Fires]
  | cons second rest ih =>
    obtain ⟨⟨hlt, hgap⟩, hgaps⟩ := isChain_cons_cons.1 hgaps
    obtain ⟨hle, hdue⟩ := ih hgaps
    refine ⟨hlt.le.trans hle, fun x => ?_⟩
    rw [exists_mem_cons_iff, hdue x, getLast_cons (cons_ne_nil _ _)]
    unfold Pass.Fires Due
    rw [← and_or_left]
    exact and_congr_right fun _ => by omega

/-- The instants of the executions of a task. -/
def firesOf (id : ℕ) (rows : List Execution) : List ℤ :=
  (rows.filter (·.taskID = id)).map (·.fireAt)

/-- **Every activation is materialized once.** The task is enabled in every pass, with a valid
definition that does not change, and the table has no execution of it before the first pass.
Activations are whole seconds, as those of the cron library are. -/
theorem materialized_once (task : ScheduledTask) {schedule : Schedule}
    (hparse : parse task.cronExpr task.timezone = .ok schedule)
    (hsec : ∀ x, schedule.activation x → second ∣ x)
    (table : List Execution) (hunique : (table.map (·.fireKey)).Nodup)
    (hnew : ∀ row ∈ table, ∀ unix, row.fireKey ≠ .sched task.id unix)
    {first : Pass} {rest : List Pass} (htask : ∀ p ∈ first :: rest, task ∈ p.tasks)
    (hgaps : (first :: rest).IsChain (Pass.Follows cfg)) :
    ∃ rows, (first :: rest).foldl (materialize parse cfg) table = table ++ rows ∧
      (firesOf task.id rows).Nodup ∧
      ∀ x, x ∈ firesOf task.id rows ↔
        Due schedule (max (first.now - cfg.overdue) task.createdAt)
          (((first :: rest).getLast (cons_ne_nil _ _)).now + cfg.step) x := by
  obtain ⟨⟨rows, hrun, hrows⟩, hkey, hnodup⟩ :=
    adds_foldl (adds_materialize parse cfg) (first :: rest) table
  rw [hrun] at hkey hnodup
  -- the rows of the task are candidates of it
  have hown : ∀ row ∈ rows, row.taskID = task.id → row.fireKey = schedFireKey task.id row.fireAt ∧
      ∃ p ∈ first :: rest, p.Fires cfg task schedule row.fireAt := by
    intro row hrow hid
    obtain ⟨p, hp, t, ht, s, hs, x, hx, rfl⟩ := hrows row hrow
    cases p.eq_of_id t ht task (htask p hp) hid
    cases hs.symm.trans hparse
    exact ⟨rfl, p, hp, hx⟩
  refine ⟨rows, hrun, ?_, fun x => ?_⟩
  · refine Nodup.of_map (schedFireKey task.id) ?_
    convert (hnodup hunique).sublist
      ((filter_sublist.trans (sublist_append_right table rows)).map (·.fireKey)) using 1
    rw [firesOf, map_map]
    refine map_congr_left fun row hrow => ?_
    obtain ⟨hrow, hid⟩ := mem_filter.1 hrow
    exact (hown row hrow (of_decide_eq_true hid)).1.symm
  · rw [← (exists_fires_iff task schedule hgaps).2 x]
    constructor
    · intro hx
      obtain ⟨row, hrow, rfl⟩ := mem_map.1 hx
      obtain ⟨hrow, hid⟩ := mem_filter.1 hrow
      exact (hown row hrow (of_decide_eq_true hid)).2
    · rintro ⟨p, hp, hx⟩
      obtain ⟨row, hrow, hrowkey⟩ :=
        mem_map.1 (hkey _ ⟨p, hp, task, htask p hp, schedule, hparse, x, hx, rfl⟩)
      rcases mem_append.1 hrow with hrow | hrow
      · exact absurd hrowkey (hnew row hrow _)
      -- the execution with this key is at `x`, as two whole seconds
      have hid : row.taskID = task.id := by
        obtain ⟨_, -, t, -, _, -, y, -, rfl⟩ := hrows row hrow
        exact (FireKey.sched.inj hrowkey).1
      obtain ⟨hkeyrow, q, -, hat⟩ := hown row hrow hid
      have hunix := (FireKey.sched.inj (hkeyrow.symm.trans hrowkey)).2
      refine mem_map.2 ⟨row, mem_filter.2 ⟨hrow, decide_eq_true hid⟩, ?_⟩
      rw [← Int.ediv_mul_cancel (hsec _ hat.1), hunix, Int.ediv_mul_cancel (hsec x hx.1)]

def hourlyTask : ScheduledTask :=
  ⟨1, "0 * * * *", "UTC", 0⟩

def hourlyPass (now : ℤ) : Pass :=
  ⟨now, [hourlyTask], by simp⟩

theorem materialized_once_hourly :
    ∃ rows, [hourlyPass 0, hourlyPass hour].foldl
        (materialize (fun expr _ => parseHourly expr) ⟨60, 60⟩) [] = rows ∧
      (firesOf 1 rows).Nodup ∧ hour ∈ firesOf 1 rows := by
  have hsec : ∀ x, hourly.activation x → second ∣ x := fun x hx =>
    Int.dvd_trans (by decide) (Int.dvd_of_emod_eq_zero hx)
  have hgaps : [hourlyPass 0, hourlyPass hour].IsChain (Pass.Follows ⟨60, 60⟩) :=
    .cons_cons ⟨by decide, by decide⟩ (.singleton _)
  obtain ⟨rows, hrun, hnodup, hmem⟩ := materialized_once (fun expr _ => parseHourly expr)
    hourlyTask rfl hsec [] .nil nofun (by simp [hourlyPass]) hgaps
  exact ⟨rows, hrun, hnodup, (hmem hour).2 ⟨show hour % hour = 0 by decide, by decide, by decide⟩⟩

end Yukino.TaskFlow
