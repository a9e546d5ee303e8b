import Yukino.ConsistentCache.Service

set_option autoImplicit false

/-!
# Consistency of the cache with the database

## Main definitions

* `timely` — the flag's own expiry fires outside of `Put` only, and that of an
  `Enable` when the calls of `Get` of that moment have finished.
* `drained` — the flag lapses only when no `Put` is underway, and no `Get` that
  began before the last write.
* `Inv` — what holds between any two steps of a run whose flag lapses that way.

## Main results

* `cache_eq_db` — in such a run, the cached value is always that of the
  database.
* `stale_cache` — the `Enable` of an earlier `Put` ends the protection of a
  later one, and a value that was overwritten stays in the cache.

## Design

While a flag is set no reader fills the cache. So it is enough that the flag outlasts every `Put`
and every reader that may have the value from before its write. All calls of `Put` share one flag,
and `Enable` shortens the life of whichever flag it finds.
-/

namespace Yukino.ConsistentCache

open List

open Redis (Fate)

variable {V : Type}

/-- The call has set the flag, and has not returned. -/
def PutPhase.underway : PutPhase V → Bool
  | .disabled _ | .deleted _ => true
  | _ => false

/-- The expiry of `Disable` does not fire during a `Put` or before its `Enable`, and that of an
`Enable` fires after the calls of `Get` that were active then. -/
def timely (s : State V) : Event V → Bool
  | .lapse =>
    match s.flag with
    | .unset => true
    | .disabled => s.puts.all (!·.active) && s.enables = 0
    | .scheduled active => active.all fun k => s.gets[k]?.all (!·.active)
  | _ => true

/-- The flag lapses when no `Put` is underway and every active `Get` began after the last write. -/
def drained (s : State V) : Event V → Bool
  | .lapse => s.puts.all (!·.underway) && s.gets.all fun g => !g.active || g.began = s.writes
  | _ => true

structure Inv (write : V → Option String) (s : State V) : Prop where
  /-- A `Put` that is underway has the flag set. -/
  flag_set : ∀ p ∈ s.puts, p.underway = true → s.flag ≠ .unset
  /-- Nothing is cached between the `Del` of a `Put` and its write. -/
  deleted : ∀ obj, .deleted obj ∈ s.puts → s.cache = none
  cached : ∀ v, s.cache = some v → cacheValue write s.db = some v
  began : ∀ g ∈ s.gets, g.began ≤ s.writes
  /-- A reader has the current value, or it cannot fill the cache. -/
  readers : ∀ g ∈ s.gets, ∀ v, g.phase = .read v →
    cacheValue write s.db = some v ∨ s.flag ≠ .unset ∧ g.began < s.writes

section Steps

variable {write : V → Option String} {s : State V}

lemma Inv.setPut (hinv : Inv write s) (k : ℕ) {p : PutPhase V}
    (hflag : p.underway = true → s.flag ≠ .unset)
    (hdel : ∀ obj, p = .deleted obj → s.cache = none) :
    Inv write (s.setPut k p) := by
  refine ⟨fun q hq hun => ?_, fun obj hobj => ?_, hinv.cached, hinv.began, hinv.readers⟩
  · rcases mem_or_eq_of_mem_set hq with hq | rfl
    · exact hinv.flag_set q hq hun
    · exact hflag hun
  · rcases mem_or_eq_of_mem_set hobj with hobj | hp
    · exact hinv.deleted obj hobj
    · exact hdel obj hp.symm

/-- A call of `Get` after a step on it: an old call, or the new phase of the one with its number. -/
lemma mem_setGet {k : ℕ} {phase : GetPhase} {g : Get} (hg : g ∈ (s.setGet k phase).gets) :
    g ∈ s.gets ∨ ∃ g₀, s.gets[k]? = some g₀ ∧ g = { g₀ with phase } := by
  obtain ⟨j, hj⟩ := mem_iff_getElem?.1 hg
  unfold State.setGet at hj
  rw [getElem?_modify] at hj
  obtain ⟨g₀, hg₀, hgeq⟩ := Option.map_eq_some_iff.1 hj
  split_ifs at hgeq with hkj
  · subst hkj
    exact .inr ⟨g₀, hg₀, hgeq.symm⟩
  · exact .inl (mem_of_getElem? (hgeq ▸ hg₀))

section

variable (hinv : Inv write s)
include hinv

lemma Inv.setGet (k : ℕ) {phase : GetPhase}
    (hread : ∀ v, phase = .read v → cacheValue write s.db = some v) :
    Inv write (s.setGet k phase) := by
  refine ⟨hinv.flag_set, hinv.deleted, hinv.cached, fun g hg => ?_, fun g hg v hv => ?_⟩
  · rcases mem_setGet hg with hg | ⟨g₀, hg₀, rfl⟩
    · exact hinv.began g hg
    · exact hinv.began g₀ (mem_of_getElem? hg₀)
  · rcases mem_setGet hg with hg | ⟨g₀, -, rfl⟩
    · exact hinv.readers g hg v hv
    · exact .inl (hread v hv)

/-- The flag is set, whatever its expiry. -/
lemma Inv.setFlag {flag : Flag} (hflag : flag ≠ .unset) : Inv write { s with flag } :=
  ⟨fun _ _ _ => hflag, hinv.deleted, hinv.cached, hinv.began,
    fun g hg v hv => (hinv.readers g hg v hv).imp_right fun h => ⟨hflag, h.2⟩⟩

lemma Inv.disable (fate : Fate) :
    Inv write (s.disable fate) ∧ (fate = .answered → (s.disable fate).flag ≠ .unset) := by
  cases fate with
  | lost => exact ⟨hinv, nofun⟩
  | unanswered => exact ⟨hinv.setFlag nofun, nofun⟩
  | answered => exact ⟨hinv.setFlag nofun, fun _ => nofun⟩

lemma Inv.enable (fate : Fate) (n : ℕ) : Inv write { s.enable fate with enables := n } := by
  have hset : Inv write (s.enable fate) := by
    unfold State.enable
    split
    · exact hinv
    · split
      · exact hinv
      · exact hinv.setFlag nofun
  exact ⟨hset.flag_set, hset.deleted, hset.cached, hset.began, hset.readers⟩

/-- Nothing is cached. -/
lemma Inv.clear : Inv write { s with cache := none } :=
  ⟨hinv.flag_set, fun _ _ => rfl, nofun, hinv.began, hinv.readers⟩

lemma Inv.del (fate : Fate) :
    Inv write (s.del fate) ∧ (fate = .answered → (s.del fate).cache = none) := by
  cases fate with
  | lost => exact ⟨hinv, nofun⟩
  | unanswered => exact ⟨hinv.clear, nofun⟩
  | answered => exact ⟨hinv.clear, fun _ => rfl⟩

/-- **The write of the database.** Its `Put` has the flag set and nothing is cached, so whoever has
the old value cannot fill the cache with it. -/
lemma Inv.dbPut {k : ℕ} {obj : V} (hput : s.puts[k]? = some (.deleted obj))
    (fate : Fate) : Inv write (s.dbPut obj fate) := by
  have hmem := mem_of_getElem? hput
  have hwrite : Inv write { s with db := some obj, writes := s.writes + 1 } := by
    refine ⟨hinv.flag_set, hinv.deleted, fun v hv => ?_, fun g hg => ?_, fun g hg v hv => ?_⟩
    · rw [hinv.deleted obj hmem] at hv
      cases hv
    · exact (hinv.began g hg).trans (Nat.le_succ _)
    · exact .inr ⟨hinv.flag_set _ hmem rfl, Nat.lt_succ_of_le (hinv.began g hg)⟩
  cases fate with
  | lost => exact hinv
  | unanswered | answered => exact hwrite

/-- A reader fills the cache when no flag is set, so no `Put` is underway and its value is the
current one. -/
lemma Inv.putWhenEnable {g : Get} {v : String} (hg : g ∈ s.gets)
    (hv : g.phase = .read v) (fate : Fate) : Inv write (s.putWhenEnable v fate) := by
  have hfill : s.flag = .unset → Inv write { s with cache := some v } := by
    intro hflag
    refine ⟨hinv.flag_set, fun obj hobj => ?_, fun w hw => ?_, hinv.began, hinv.readers⟩
    · exact absurd hflag (hinv.flag_set _ hobj rfl)
    · cases hw
      exact (hinv.readers g hg v hv).resolve_right fun h => h.1 hflag
  unfold State.putWhenEnable
  split
  · exact hinv
  · split
    · next hflag => exact hfill hflag
    · exact hinv

/-- The flag lapses after all that it protects from. -/
lemma Inv.lapse (hok : drained s .lapse = true) : Inv write { s with flag := .unset } := by
  obtain ⟨hputs, hgets⟩ := Bool.and_eq_true_iff.1 hok
  refine ⟨fun p hp hun => ?_, hinv.deleted, hinv.cached, hinv.began, fun g hg v hv => ?_⟩
  · have hnot := all_eq_true.1 hputs p hp
    rw [hun] at hnot
    cases hnot
  · refine .inl ((hinv.readers g hg v hv).resolve_right fun h => ?_)
    have hg' := all_eq_true.1 hgets g hg
    have hactive : g.active = true := by
      unfold Get.active
      rw [hv]
      rfl
    rw [hactive, Bool.not_true, Bool.false_or, decide_eq_true_eq] at hg'
    exact absurd h.2 (by rw [hg']; exact lt_irrefl _)

lemma Inv.returnPut (k : ℕ) : Inv write (returnPut s k) := by
  have h := hinv.setPut k (p := .returned) nofun nofun
  exact ⟨h.flag_set, h.deleted, h.cached, h.began, h.readers⟩

end

/-- **Every step keeps the invariant**, if the flag lapses only when it may. -/
lemma Inv.step (s : State V) (e : Event V) (s' : State V) (hinv : Inv write s)
    (hok : drained s e = true) (hstep : step write s e = some s') : Inv write s' := by
  unfold ConsistentCache.step at hstep
  cases e with
  | put obj =>
    cases hstep
    refine ⟨fun p hp hun => ?_, fun obj' hobj => ?_, hinv.cached, hinv.began, hinv.readers⟩
    · rcases mem_append.1 hp with hp | hp
      · exact hinv.flag_set p hp hun
      · rw [mem_singleton.1 hp] at hun
        cases hun
    · rcases mem_append.1 hobj with hobj | hobj
      · exact hinv.deleted obj' hobj
      · cases mem_singleton.1 hobj
  | disable k fate =>
    dsimp only at hstep
    split at hstep <;> cases hstep
    obtain ⟨hset, hflag⟩ := hinv.disable fate
    refine hset.setPut k (fun hun => hflag ?_) fun obj hp => ?_
    · by_contra hne
      rw [if_neg hne] at hun
      cases hun
    · split_ifs at hp
  | del k fate =>
    dsimp only at hstep
    obtain ⟨hset, hcache⟩ := hinv.del fate
    split at hstep
    · next obj hput =>
      split_ifs at hstep with hfate
      · cases hstep
        refine hset.setPut k (fun _ => ?_) fun _ _ => hcache hfate
        have hflag := hinv.flag_set _ (mem_of_getElem? hput) rfl
        cases fate <;> exact hflag
      · cases hstep
        exact hset.returnPut k
    · cases hstep
  | dbPut k fate =>
    dsimp only at hstep
    split at hstep <;> cases hstep
    next hput => exact (hinv.dbPut hput fate).returnPut k
  | enable fate =>
    split_ifs at hstep
    cases hstep
    exact hinv.enable fate _
  | get =>
    cases hstep
    refine ⟨hinv.flag_set, hinv.deleted, hinv.cached, fun g hg => ?_, fun g hg v hv => ?_⟩
    · rcases mem_append.1 hg with hg | hg
      · exact hinv.began g hg
      · rw [mem_singleton.1 hg]
    · rcases mem_append.1 hg with hg | hg
      · exact hinv.readers g hg v hv
      · rw [mem_singleton.1 hg] at hv
        cases hv
  | cacheGet k fate =>
    dsimp only at hstep
    split at hstep <;> cases hstep
    refine hinv.setGet k fun v hv => ?_
    split_ifs at hv
  | dbGet k fate =>
    dsimp only at hstep
    split at hstep <;> cases hstep
    refine hinv.setGet k fun v hv => ?_
    split at hv
    · next value hvalue =>
      split_ifs at hv
      cases hv
      exact hvalue
    · cases hv
  | putWhenEnable k fate =>
    dsimp only at hstep
    split at hstep <;> cases hstep
    next hget =>
      exact (hinv.putWhenEnable (mem_of_getElem? hget) rfl fate).setGet k nofun
  | lapse =>
    dsimp only at hstep
    split at hstep <;> cases hstep
    exact hinv.lapse hok
  | expire =>
    cases hstep
    exact hinv.clear

end Steps

/-! ## Runs -/

/-- **The cache agrees with the database** in every run in which the flag lapses only when no `Put`
is underway and every active `Get` began after the last write.

**Proof sketch.** A reader that fills the cache finds no flag, so it has the current value. A `Put`
that writes the database has the flag set since its `Disable`, so nothing was cached since its
`Del`. -/
theorem cache_eq_db (write : V → Option String) (db : Option V) {es : List (Event V)} {s : State V}
    (hdrained : Runs.along (step write) drained { db } es = true)
    (hrun : Runs.run (step write) { db } es = some s) {v : String} (hv : s.cache = some v) :
    cacheValue write s.db = some v := by
  have hinit : Inv write ({ db } : State V) := ⟨nofun, nofun, nofun, nofun, nofun⟩
  exact (Runs.along_invariant Inv.step hinit hdrained hrun).cached v hv

/-- A `Put`, whose flag lapses before a `Get`. -/
def putThenGet : List (Event String) :=
  [.put "1", .disable 0 .answered, .del 0 .answered, .dbPut 0 .answered, .enable .answered, .lapse,
    .get, .cacheGet 0 .answered, .dbGet 0 .answered, .putWhenEnable 0 .answered]

theorem cache_eq_db_putThenGet :
    ∃ s, Runs.run (step some) { db := none } putThenGet = some s ∧ s.cache = some "1" ∧
      cacheValue some s.db = some "1" := by
  obtain ⟨s, hrun, hv⟩ : ∃ s, Runs.run (step some) { db := none } putThenGet = some s ∧
      s.cache = some "1" := by decide +kernel
  exact ⟨s, hrun, hv, cache_eq_db some none (by decide +kernel) hrun hv⟩

/-- The first `Put` calls its `Enable` when the second one has set the flag, which lapses before the
second one writes. -/
def lateEnable : List (Event String) :=
  [.put "1", .disable 0 .answered, .del 0 .answered, .dbPut 0 .answered,
    .put "2", .disable 1 .answered, .del 1 .answered, .enable .answered, .lapse,
    .get, .cacheGet 0 .answered, .dbGet 0 .answered, .putWhenEnable 0 .answered,
    .dbPut 1 .answered, .enable .answered]

theorem stale_cache :
    Runs.along (step some) timely { db := none } lateEnable = true ∧
      ∃ s, Runs.run (step some) { db := none } lateEnable = some s ∧
        (s.puts.all (!·.active) = true ∧ s.enables = 0 ∧ s.flag = .unset) ∧
        s.cache = some "1" ∧ s.db = some "2" := by
  decide +kernel

end Yukino.ConsistentCache
