import Yukino.Timer.Cron

set_option autoImplicit false

/-!
# Windows of execution times

## Main definitions

* `Continues` — there is an activation at some instant or later.
* `Consecutive` — passes of the migrator whose windows follow on one another.

## Main results

* `windows_tile_iff` — two windows that share a boundary give what the whole window
  gives, exactly if the boundary is not an activation inside; and the windows of `EnableTimer` and
  of consecutive passes give every activation, exactly if none of them is the start of a pass.
* `boundary_skipped` — an hourly timer misses the full hour between two windows.

## Design

`Next` is strictly after its argument, so `nextsBetween` lists the activations of the open interval
(`nextsLoop_ok`). It fails if activations end before the window does, since `Next` then
is the zero time (`nextsLoop_error`).
-/

namespace Yukino.Timer

open List

/-! ## One window -/

/-- There is an activation at the instant or after it. -/
def Continues (s : Schedule) (t : ℤ) : Prop :=
  ∃ y, t ≤ y ∧ s.activation y

section Loop

variable {s : Schedule} {expr : String}

lemma Continues.mono {t u : ℤ} (htu : t ≤ u) (h : Continues s u) : Continues s t := by
  obtain ⟨y, hy, hact⟩ := h
  exact ⟨y, htu.trans hy, hact⟩

/-- **The loop lists the activations of the open interval**, in order, if they do not end before. -/
lemma nextsLoop_ok (s : Schedule) (expr : String) {finish : ℤ} (cur : ℤ)
    (h : cur < finish → Continues s finish) :
    ∃ xs, nextsLoop s expr finish cur = .ok xs ∧ xs.SortedLT ∧
      ∀ x, x ∈ xs ↔ s.activation x ∧ cur < x ∧ x < finish := by
  fun_induction nextsLoop s expr finish cur with
  | case1 cur hlt hnone =>
    obtain ⟨y, hy, hact⟩ := h hlt
    exact absurd (hlt.trans_le hy) (s.not_of_next hnone y hact)
  | case2 cur hlt next hnext hin ih =>
    obtain ⟨⟨hact, hcur⟩, hleast⟩ := s.isLeast_of_next hnext
    obtain ⟨xs, hxs, hsorted, hmem⟩ := ih fun _ => h hlt
    refine ⟨next :: xs, by rw [hxs]; rfl, ?_, fun x => ?_⟩
    · rw [sortedLT_iff_pairwise] at hsorted ⊢
      exact pairwise_cons.2 ⟨fun x hx => ((hmem x).1 hx).2.1, hsorted⟩
    · rw [mem_cons, hmem x]
      constructor
      · rintro (rfl | ⟨hx, hlo, hhi⟩)
        · exact ⟨hact, hcur, hin⟩
        · exact ⟨hx, hcur.trans hlo, hhi⟩
      · rintro ⟨hx, hlo, hhi⟩
        rcases eq_or_lt_of_le (hleast ⟨hx, hlo⟩) with heq | hlt
        · exact .inl heq.symm
        · exact .inr ⟨hx, hlt, hhi⟩
  | case3 cur hlt next hnext hout =>
    have hleast := (s.isLeast_of_next hnext).2
    refine ⟨[], rfl, sortedLT_iff_pairwise.2 .nil, fun x => iff_of_false not_mem_nil ?_⟩
    rintro ⟨hx, hlo, hhi⟩
    exact hout ((hleast ⟨hx, hlo⟩).trans_lt hhi)
  | case4 cur hge =>
    refine ⟨[], rfl, sortedLT_iff_pairwise.2 .nil, fun x => iff_of_false not_mem_nil ?_⟩
    rintro ⟨-, hlo, hhi⟩
    exact hge (hlo.trans hhi)

/-- The loop fails if activations end before it does. -/
lemma nextsLoop_error {finish cur : ℤ} (hlt : cur < finish) (h : ¬ Continues s finish) :
    nextsLoop s expr finish cur = .error (.zeroTime expr) := by
  fun_induction nextsLoop s expr finish cur with
  | case1 cur _ hnone => rfl
  | case2 cur _ next hnext hin ih =>
    rw [ih hin]
    rfl
  | case3 cur _ next hnext hout =>
    exact absurd ⟨next, not_lt.1 hout, (s.isLeast_of_next hnext).1.1⟩ h
  | case4 cur hge => exact absurd hlt hge

lemma nextsLoop_ok_or_error (s : Schedule) (expr : String) (finish cur : ℤ) :
    (∃ xs, nextsLoop s expr finish cur = .ok xs) ∨
      nextsLoop s expr finish cur = .error (.zeroTime expr) := by
  by_cases h : cur < finish ∧ ¬ Continues s finish
  · exact .inr (nextsLoop_error h.1 h.2)
  · obtain ⟨xs, hxs, -⟩ := nextsLoop_ok s expr cur fun hlt => not_not.1 (not_and.1 h hlt)
    exact .inl ⟨xs, hxs⟩

/-- What the loop lists when it succeeds. -/
lemma mem_nextsLoop {finish cur : ℤ} {xs : List ℤ} (h : nextsLoop s expr finish cur = .ok xs)
    (x : ℤ) : x ∈ xs ↔ s.activation x ∧ cur < x ∧ x < finish ∧ Continues s finish := by
  have hcont : cur < finish → Continues s finish := by
    intro hlt
    by_contra hnot
    rw [nextsLoop_error hlt hnot] at h
    cases h
  obtain ⟨ys, hys, -, hmem⟩ := nextsLoop_ok s expr cur hcont
  cases h.symm.trans hys
  rw [hmem]
  constructor
  · rintro ⟨hact, hlo, hhi⟩
    exact ⟨hact, hlo, hhi, hcont (hlo.trans hhi)⟩
  · rintro ⟨hact, hlo, hhi, -⟩
    exact ⟨hact, hlo, hhi⟩

lemma nextsLoop_self (t : ℤ) : nextsLoop s expr t t = .ok [] := by
  unfold nextsLoop
  exact if_neg (lt_irrefl t)

variable {parseStandard : String → Except String Schedule}

lemma nextsBetween_eq (hparse : parseStandard expr = .ok s) {a b : ℤ} (hab : a ≤ b) :
    nextsBetween parseStandard expr a b = nextsLoop s expr b a := by
  unfold nextsBetween
  rw [if_neg (not_lt.2 hab), hparse]

/-- Two results, one after the other. -/
def followedBy (first second : Except NextsError (List ℤ)) : Except NextsError (List ℤ) := do
  let xs ← first
  let ys ← second
  return xs ++ ys

lemma followedBy_nil (first : Except NextsError (List ℤ)) : followedBy first (.ok []) = first := by
  cases first with
  | error e => rfl
  | ok xs => exact congrArg Except.ok (append_nil xs)

/-- The lists of two windows that share a boundary, if activations do not end before: all
activations inside but the boundary. -/
lemma followedBy_windows (hparse : parseStandard expr = .ok s) {a b c : ℤ} (hab : a ≤ b)
    (hbc : b ≤ c) (hc : Continues s c) :
    ∃ zs, followedBy (nextsBetween parseStandard expr a b) (nextsBetween parseStandard expr b c) =
        .ok zs ∧ zs.SortedLT ∧
      ∀ x, x ∈ zs ↔ s.activation x ∧ a < x ∧ x < c ∧ x ≠ b := by
  obtain ⟨xs, hxs, hxsorted, hxmem⟩ := nextsLoop_ok s expr a fun _ => hc.mono hbc
  obtain ⟨ys, hys, hysorted, hymem⟩ := nextsLoop_ok s expr b fun _ => hc
  refine ⟨xs ++ ys, ?_, ?_, fun x => ?_⟩
  · rw [nextsBetween_eq hparse hab, nextsBetween_eq hparse hbc, hxs, hys]
    rfl
  · rw [sortedLT_iff_pairwise] at hxsorted hysorted ⊢
    refine pairwise_append.2 ⟨hxsorted, hysorted, fun x hx y hy => ?_⟩
    exact ((hxmem x).1 hx).2.2.trans ((hymem y).1 hy).2.1
  · rw [mem_append, hxmem, hymem]
    constructor
    · rintro (⟨hact, hlo, hhi⟩ | ⟨hact, hlo, hhi⟩)
      · exact ⟨hact, hlo, hhi.trans_le hbc, hhi.ne⟩
      · exact ⟨hact, hab.trans_lt hlo, hhi, hlo.ne'⟩
    · rintro ⟨hact, hlo, hhi, hne⟩
      rcases lt_or_gt_of_ne hne with hlt | hgt
      · exact .inl ⟨hact, hlo, hlt⟩
      · exact .inr ⟨hact, hgt, hhi⟩

/-- **Two windows tile**, exactly if their boundary is not an activation inside of the whole one, or
activations end before it does. -/
lemma followedBy_eq_iff (hparse : parseStandard expr = .ok s) {a b c : ℤ} (hab : a ≤ b)
    (hbc : b ≤ c) :
    followedBy (nextsBetween parseStandard expr a b) (nextsBetween parseStandard expr b c) =
        nextsBetween parseStandard expr a c ↔
      ¬ (a < b ∧ b < c ∧ s.activation b ∧ Continues s c) := by
  by_cases hc : Continues s c
  · obtain ⟨zs, hzs, hzsorted, hzmem⟩ := followedBy_windows hparse hab hbc hc
    obtain ⟨ws, hws, hwsorted, hwmem⟩ := nextsLoop_ok s expr a fun _ => hc
    rw [hzs, nextsBetween_eq hparse (hab.trans hbc), hws]
    constructor
    · rintro heq ⟨hlt, hlt', hact, -⟩
      cases heq
      exact ((hzmem b).1 ((hwmem b).2 ⟨hact, hlt, hlt'⟩)).2.2.2 rfl
    · intro hnot
      refine congrArg Except.ok (hzsorted.eq_of_mem_iff hwsorted fun x => ?_)
      rw [hzmem, hwmem]
      constructor
      · rintro ⟨hact, hlo, hhi, -⟩
        exact ⟨hact, hlo, hhi⟩
      · rintro ⟨hact, hlo, hhi⟩
        refine ⟨hact, hlo, hhi, ?_⟩
        rintro rfl
        exact hnot ⟨hlo, hhi, hact, hc⟩
  · refine iff_of_true ?_ fun h => hc h.2.2.2
    rw [nextsBetween_eq hparse hab, nextsBetween_eq hparse hbc,
      nextsBetween_eq hparse (hab.trans hbc)]
    rcases hbc.eq_or_lt with rfl | hlt
    · rw [nextsLoop_self, followedBy_nil]
    · rw [nextsLoop_error hlt hc, nextsLoop_error (hab.trans_lt hlt) hc]
      rcases nextsLoop_ok_or_error s expr b a with ⟨xs, hxs⟩ | hxs
      · rw [hxs]
        rfl
      · rw [hxs]
        rfl

end Loop

/-! ## Consecutive windows -/

section Passes

variable {s : Schedule} {expr : String} {parseStandard : String → Except String Schedule}
  (cfg : Config)

lemma getStartHour_mono {t u : ℤ} (h : t ≤ u) : getStartHour cfg t ≤ getStartHour cfg u := by
  unfold getStartHour
  have hdiv : (t + cfg.offset) / hour ≤ (u + cfg.offset) / hour :=
    Int.ediv_le_ediv (by decide) (by omega)
  have ht := Int.mul_ediv_add_emod (t + cfg.offset) hour
  have hu := Int.mul_ediv_add_emod (u + cfg.offset) hour
  have hmul : hour * ((t + cfg.offset) / hour) ≤ hour * ((u + cfg.offset) / hour) :=
    Int.mul_le_mul_of_nonneg_left hdiv (by decide)
  omega

lemma migrateStart_le (p : ℤ) : migrateStart cfg p ≤ migrateEnd cfg p := by
  refine getStartHour_mono cfg ?_
  have hstep : 0 < cfg.step := Int.mul_pos cfg.step_pos (by decide)
  omega

/-- Passes whose windows follow on one another, from the given instant on. -/
def Consecutive (e : ℤ) : List ℤ → Prop
  | [] => True
  | p :: passes => migrateStart cfg p = e ∧ Consecutive (migrateEnd cfg p) passes

/-- The end of the last window. -/
def lastEnd (e : ℤ) : List ℤ → ℤ
  | [] => e
  | p :: passes => lastEnd (migrateEnd cfg p) passes

variable {cfg}

variable {x e start now : ℤ} {passes ts : List ℤ}

/-- What a pass creates, if activations do not end before its window does. -/
lemma mem_migrate (hparse : parseStandard expr = .ok s) {p : ℤ} :
    x ∈ migrate parseStandard cfg expr p ↔ s.activation x ∧ migrateStart cfg p < x ∧
      x < migrateEnd cfg p ∧ Continues s (migrateEnd cfg p) := by
  unfold migrate
  rw [nextsBetween_eq hparse (migrateStart_le cfg p)]
  rcases nextsLoop_ok_or_error s expr (migrateEnd cfg p) (migrateStart cfg p) with ⟨xs, hxs⟩ | hxs
  · rw [hxs]
    exact mem_nextsLoop hxs x
  · rw [hxs]
    refine iff_of_false not_mem_nil fun hx => ?_
    obtain ⟨ys, hys, -⟩ := nextsLoop_ok s expr (migrateStart cfg p) fun _ => hx.2.2.2
    cases hxs.symm.trans hys

lemma Consecutive.le_lastEnd (h : Consecutive cfg e passes) :
    e ≤ lastEnd cfg e passes ∧
      ∀ p ∈ passes, e ≤ migrateStart cfg p ∧ migrateEnd cfg p ≤ lastEnd cfg e passes := by
  induction passes generalizing e with
  | nil => exact ⟨le_rfl, nofun⟩
  | cons p passes ih =>
    obtain ⟨rfl, hpasses⟩ := h
    obtain ⟨hle, hall⟩ := ih hpasses
    have hp := migrateStart_le cfg p
    refine ⟨hp.trans hle, fun q hq => ?_⟩
    rcases mem_cons.1 hq with rfl | hq
    · exact ⟨le_rfl, hle⟩
    · exact ⟨hp.trans (hall q hq).1, (hall q hq).2⟩

/-- The windows of the passes leave out their starts only. -/
lemma Consecutive.exists_window (h : Consecutive cfg e passes)
    (hlo : e ≤ x) (hhi : x < lastEnd cfg e passes) :
    (∃ p ∈ passes, migrateStart cfg p < x ∧ x < migrateEnd cfg p) ↔
      ∀ p ∈ passes, x ≠ migrateStart cfg p := by
  induction passes generalizing e with
  | nil => exact absurd hhi (not_lt.2 hlo)
  | cons p passes ih =>
    obtain ⟨rfl, hpasses⟩ := h
    have hle := hpasses.le_lastEnd
    rcases lt_or_ge x (migrateEnd cfg p) with hx | hx
    · have hlater : ∀ q ∈ passes, x < migrateStart cfg q := fun q hq => hx.trans_le (hle.2 q hq).1
      rw [forall_mem_cons]
      constructor
      · rintro ⟨q, hq, hstart, -⟩
        rcases mem_cons.1 hq with rfl | hq
        · exact ⟨hstart.ne', fun q hq => (hlater q hq).ne⟩
        · exact absurd hstart (hlater q hq).not_gt
      · rintro ⟨hne, -⟩
        exact ⟨p, mem_cons_self .., lt_of_le_of_ne hlo hne.symm, hx⟩
    · rw [forall_mem_cons, ← ih hpasses hx hhi]
      constructor
      · rintro ⟨q, hq, hstart, hend⟩
        rcases mem_cons.1 hq with rfl | hq
        · exact absurd hend (not_lt.2 hx)
        · have hp := (migrateStart_le cfg p).trans (hle.2 q hq).1
          exact ⟨(hp.trans_lt hstart).ne', q, hq, hstart, hend⟩
      · rintro ⟨-, q, hq, hwindow⟩
        exact ⟨q, mem_cons_of_mem _ hq, hwindow⟩

/-- What `EnableTimer` creates when it succeeds. -/
lemma of_enableTimer (hparse : parseStandard expr = .ok s)
    (h : enableTimer parseStandard cfg expr start now = .ok ts) :
    now ≤ enableEnd cfg start ∧
      ∀ x, x ∈ ts ↔ s.activation x ∧ now < x ∧ x < enableEnd cfg start ∧
        Continues s (enableEnd cfg start) := by
  unfold enableTimer nextsBefore at h
  have hle : now ≤ enableEnd cfg start := by
    by_contra hlt
    unfold nextsBetween at h
    rw [if_pos (not_le.1 hlt)] at h
    cases h
  rw [nextsBetween_eq hparse hle] at h
  exact ⟨hle, mem_nextsLoop h⟩

/-- A task is created for the last activation before an instant only if there is a later one. -/
lemma continues_of_created
    (hcont : ∀ x ∈ ts, ∃ v, x < v ∧ v ≤ e ∧ Continues s v)
    (hall : ∀ x, s.activation x → now < x → x < e → x ∈ ts) (hact : s.activation x)
    (hlo : now < x) (hhi : x < e) : Continues s e := by
  by_contra hnot
  classical
  obtain ⟨m, ⟨hm, hme⟩, hmax⟩ := Int.exists_greatest_of_bdd (P := fun y => s.activation y ∧ y < e)
    ⟨e, fun y hy => hy.2.le⟩ ⟨x, hact, hhi⟩
  obtain ⟨v, hmv, -, y, hvy, hy⟩ := hcont m (hall m hm (hlo.trans_le (hmax x ⟨hact, hhi⟩)) hme)
  rcases lt_or_ge y e with hye | hye
  · exact absurd (hmax y ⟨hy, hye⟩) (not_le.2 (hmv.trans_le hvy))
  · exact hnot ⟨y, hye, hy⟩

end Passes

/-! ## Results -/

/-- **When windows tile.** For a valid expression, two windows with a common boundary give what the
whole window gives, exactly if the boundary is not an activation inside of it with another one at
its end or later. The windows of `EnableTimer` and of consecutive passes of the migrator create a
task for every activation, exactly if for each of these no pass starts at it, and there is one at
the end of the last window or later. -/
theorem windows_tile_iff (parseStandard : String → Except String Schedule) (cfg : Config)
    {expr : String} {s : Schedule} (hparse : parseStandard expr = .ok s) :
    (∀ a b c, a ≤ b → b ≤ c →
      (followedBy (nextsBetween parseStandard expr a b) (nextsBetween parseStandard expr b c) =
          nextsBetween parseStandard expr a c ↔
        ¬ (a < b ∧ b < c ∧ s.activation b ∧ Continues s c))) ∧
    ∀ start now ts passes, enableTimer parseStandard cfg expr start now = .ok ts →
      Consecutive cfg (enableEnd cfg start) passes →
      ((∀ x, s.activation x → now < x → x < lastEnd cfg (enableEnd cfg start) passes →
          x ∈ ts ++ passes.flatMap (migrate parseStandard cfg expr)) ↔
        ∀ x, s.activation x → now < x → x < lastEnd cfg (enableEnd cfg start) passes →
          (∀ p ∈ passes, x ≠ migrateStart cfg p) ∧
            Continues s (lastEnd cfg (enableEnd cfg start) passes)) := by
  refine ⟨fun _ _ _ hab hbc => followedBy_eq_iff hparse hab hbc, ?_⟩
  intro start now ts passes henable hpasses
  obtain ⟨hle, hts⟩ := of_enableTimer hparse henable
  obtain ⟨hlast, hends⟩ := hpasses.le_lastEnd
  have hcreated : ∀ x, x ∈ ts ++ passes.flatMap (migrate parseStandard cfg expr) ↔
      x ∈ ts ∨ ∃ p ∈ passes, x ∈ migrate parseStandard cfg expr p := by
    intro x
    rw [mem_append, mem_flatMap]
  constructor
  · intro hall x hact hlo hhi
    refine ⟨fun p hp heq => ?_, continues_of_created (fun y hy => ?_) hall hact hlo hhi⟩
    · rcases (hcreated x).1 (hall x hact hlo hhi) with hx | ⟨q, hq, hx⟩
      · exact absurd ((hts x).1 hx).2.2.1 (not_lt.2 (heq ▸ (hends p hp).1))
      · obtain ⟨-, hqlo, hqhi, -⟩ := (mem_migrate hparse).1 hx
        exact (hpasses.exists_window ((hends q hq).1.trans hqlo.le) hhi).1
          ⟨q, hq, hqlo, hqhi⟩ p hp heq
    · rcases (hcreated y).1 hy with hy | ⟨q, hq, hy⟩
      · obtain ⟨-, -, hyhi, hcont⟩ := (hts y).1 hy
        exact ⟨_, hyhi, hlast, hcont⟩
      · obtain ⟨-, -, hyhi, hcont⟩ := (mem_migrate hparse).1 hy
        exact ⟨_, hyhi, (hends q hq).2, hcont⟩
  · intro hcond x hact hlo hhi
    obtain ⟨hstarts, hcont⟩ := hcond x hact hlo hhi
    rw [hcreated]
    rcases lt_or_ge x (enableEnd cfg start) with hx | hx
    · exact .inl ((hts x).2 ⟨hact, hlo, hx, hcont.mono hlast⟩)
    · obtain ⟨p, hp, hplo, hphi⟩ := (hpasses.exists_window hx hhi).2 hstarts
      exact .inr ⟨p, hp, (mem_migrate hparse).2 ⟨hact, hplo, hphi, hcont.mono (hends p hp).2⟩⟩

/-- A schedule with one activation in each hour, in a location whose hours are those of UTC. -/
def atMinute (past : ℤ) : Schedule where
  activation x := x % hour = past * minute % hour
  next t := some (t - (t - past * minute) % hour + hour)
  isLeast_of_next := by
    intro t u h
    cases h
    unfold hour minute
    refine ⟨⟨by omega, by omega⟩, fun x hx => ?_⟩
    obtain ⟨hact, hlt⟩ := hx
    omega
  not_of_next := nofun

/-- The schedule of `0 * * * *`. -/
def hourly : Schedule := atMinute 0

/-- The parser of the cron library on two expressions. -/
def parseHourly (expr : String) : Except String Schedule :=
  if expr = "0 * * * *" then .ok hourly
  else if expr = "30 * * * *" then .ok (atMinute 30)
  else .error "unknown"

/-- The migrator runs every hour. -/
def hourlySteps : Config := ⟨0, 60, by decide⟩

/-- A timer that runs at half past: two windows tile, and it is enabled at midnight and migrated at
one and at two o'clock, which creates a task for every activation before four o'clock. -/
theorem windows_tile_half_past :
    followedBy (nextsBetween parseHourly "30 * * * *" 0 hour)
        (nextsBetween parseHourly "30 * * * *" hour (2 * hour)) =
      nextsBetween parseHourly "30 * * * *" 0 (2 * hour) ∧
    ∃ ts, enableTimer parseHourly hourlySteps "30 * * * *" 0 0 = .ok ts ∧
      ∀ x, (atMinute 30).activation x → 0 < x → x < 4 * hour →
        x ∈ ts ++ [hour, 2 * hour].flatMap (migrate parseHourly hourlySteps "30 * * * *") := by
  have hparse : parseHourly "30 * * * *" = .ok (atMinute 30) := rfl
  have hfull : ∀ x, (atMinute 30).activation x → x % hour ≠ 0 := fun x hx => by
    rw [show x % hour = 30 * minute from hx]
    decide
  have hlast : lastEnd hourlySteps (enableEnd hourlySteps 0) [hour, 2 * hour] = 4 * hour := by
    decide
  have hcont : Continues (atMinute 30) (4 * hour) :=
    ⟨4 * hour + 30 * minute, by decide, show _ % hour = _ by decide⟩
  obtain ⟨ts, hts, -⟩ := nextsLoop_ok (atMinute 30) "30 * * * *" 0 fun _ =>
    hcont.mono (show 2 * hour ≤ 4 * hour by decide)
  have henable : enableTimer parseHourly hourlySteps "30 * * * *" 0 0 = .ok ts :=
    (nextsBetween_eq hparse (by decide)).trans hts
  obtain ⟨htile, hpasses⟩ := windows_tile_iff parseHourly hourlySteps hparse
  have hcreated := hpasses 0 0 ts [hour, 2 * hour] henable ⟨by decide, by decide, trivial⟩
  rw [hlast] at hcreated
  refine ⟨(htile 0 hour (2 * hour) (by decide) (by decide)).2 fun hnot => hfull _ hnot.2.2.1 rfl,
    ts, henable, hcreated.2 fun x hact _ _ => ⟨fun p hp heq => hfull x hact ?_, hcont⟩⟩
  rw [heq]
  rcases mem_pair.1 hp with rfl | rfl <;> decide

/-- An hourly timer has an activation at one o'clock, but none in the two windows that meet there.
-/
theorem boundary_skipped :
    followedBy (nextsBetween parseHourly "0 * * * *" 0 hour)
        (nextsBetween parseHourly "0 * * * *" hour (2 * hour)) ≠
      nextsBetween parseHourly "0 * * * *" 0 (2 * hour) := by
  have hparse : parseHourly "0 * * * *" = .ok hourly := rfl
  intro h
  refine (followedBy_eq_iff hparse (by decide) (by decide)).1 h ⟨by decide, by decide, ?_, ?_⟩
  · exact show hour % hour = 0 by decide
  · exact ⟨2 * hour, le_rfl, show (2 * hour) % hour = 0 by decide⟩

end Yukino.Timer
