import Yukino.TimeWheel.RedisWheel

set_option autoImplicit false

/-!
# Removing and replacing tasks of the wheel in Redis

The sorted set of a minute is keyed by the whole text of a task, and a removal only puts the key of
the task into a set, which expires. So adding a key again with another text leaves the old text in
place, and takes the key out of the set of removed ones.

## Main definitions

* `RTimeWheel.latest` — the text that was added last for a key, if it was not removed.
* `RTimeWheel.orderly` — the condition on a call.

## Main results

* `RTimeWheel.Current.step` — what a call keeps.
* `RTimeWheel.poll_returns_latest` — polls return the newest texts only.
-/

namespace Yukino.TimeWheel.RTimeWheel

open Redis List Function AList

variable {ρ : Type}

/-- The text that was added last for a key and a minute, if the key was not removed since. -/
def latest (codec : Codec ρ) (minute : ℤ) (key : String) (evs : List (Event ρ)) : Option String :=
  evs.foldl (fun newest ev => match ev with
    | .addTask _ key' task executeAt =>
      if key' = key ∧ getTimeMinuteStr executeAt = minute then (text codec key' task).or newest
      else newest
    | .removeTask _ key' executeAt =>
      if key' = key ∧ getTimeMinuteStr executeAt = minute then none else newest
    | .poll _ _ => newest) none

/-- The keys of the tasks that are stored for a minute, with their texts. -/
def storedKeys (codec : Codec ρ) (r : Store) (minute : ℤ) : List (String × String) :=
  (r.tasks minute).keys.filterMap fun body => (codec.unmarshal body).map fun t => (t.key, body)

/-- The set of removed keys has not expired with a key of a task that is stored. -/
def unexpired (codec : Codec ρ) (r : Store) (clock minute : ℤ) : Bool :=
  (storedKeys codec r minute).all fun p =>
    p.1 ∉ (r.deleteSets minute).members || p.1 ∈ ((r.deleteSets minute).live clock).members

/-- The condition on a call, in the store before it: the removed keys of the minute have not
expired, and a task that is added has no other text in the minute. -/
def orderly (codec : Codec ρ) (r : Store) : Event ρ → Bool
  | .addTask clock key task executeAt =>
    unexpired codec r clock (getTimeMinuteStr executeAt) &&
      (storedKeys codec r (getTimeMinuteStr executeAt)).all fun p =>
        p.1 ≠ key || text codec key task = some p.2
  | .removeTask clock _ executeAt => unexpired codec r clock (getTimeMinuteStr executeAt)
  | .poll clock now => unexpired codec r clock (getTimeMinuteStr now)

/-- A stored text is the newest of its key, or the key is a removed one. -/
def Current (codec : Codec ρ) (evs : List (Event ρ)) (r : Store) : Prop :=
  ∀ minute body t, body ∈ r.tasks minute → codec.unmarshal body = some t →
    t.key ∈ (r.deleteSets minute).members ∨ latest codec minute t.key evs = some body

variable {codec : Codec ρ} {r : Store} {evs : List (Event ρ)} {clock minute : ℤ}
  {key body : String}

/-- The key comes back from the text. -/
lemma key_of_text {task : Option (RTaskElement ρ)} {t : RTaskElement ρ}
    (h : text codec key task = some body) (ht : codec.unmarshal body = some t) : t.key = key := by
  obtain ⟨t', -, hbody⟩ := marshal_of_text h
  have := codec.unmarshal_marshal _ _ hbody
  rw [ht, Option.some.injEq] at this
  rw [this]

lemma mem_storedKeys {t : RTaskElement ρ} (hbody : body ∈ r.tasks minute)
    (ht : codec.unmarshal body = some t) : (t.key, body) ∈ storedKeys codec r minute :=
  mem_filterMap.2 ⟨body, hbody, by rw [ht]; rfl⟩

lemma live_of_unexpired {t : RTaskElement ρ} (h : unexpired codec r clock minute = true)
    (hbody : body ∈ r.tasks minute) (ht : codec.unmarshal body = some t)
    (hmem : t.key ∈ (r.deleteSets minute).members) :
    t.key ∈ ((r.deleteSets minute).live clock).members := by
  have := all_eq_true.1 h _ (mem_storedKeys hbody ht)
  simpa [hmem] using this

lemma mem_srem {s : TSet} {x : String} : x ∈ (s.srem clock key).members ↔
    x ≠ key ∧ x ∈ (s.live clock).members := by
  unfold TSet.srem
  dsimp only
  split_ifs with h
  · have := Finset.mem_erase (a := x) (b := key) (s := (s.live clock).members)
    rw [h] at this
    simpa using this
  · exact Finset.mem_erase

lemma mem_luaDeleteTask {x : String} :
    x ∈ ((luaDeleteTask r clock minute key).deleteSets minute).members ↔
      x = key ∨ x ∈ ((r.deleteSets minute).live clock).members := by
  simp only [luaDeleteTask]
  split_ifs <;> simp [TSet.sadd, TSet.expire]

lemma mem_step_poll {now : Time}
    (h : body ∈ (step codec r (.poll clock now)).tasks minute) : body ∈ r.tasks minute := by
  change body ∈ update r.tasks (getTimeMinuteStr now) _ minute at h
  by_cases hmin : minute = getTimeMinuteStr now
  · rw [hmin, update_self] at h
    obtain ⟨score, hscore⟩ := Option.isSome_iff_exists.1 (lookup_isSome.2 h)
    rw [hmin, ← lookup_isSome, (ZSet.lookup_zremrange.1 hscore).1]
    rfl
  · rwa [update_of_ne hmin] at h

/-- **A call that meets the condition keeps the stored texts current.**

**Proof sketch.** A text that `AddTask` stores is the newest of its key. The other texts of the
minute belong to other keys, and a removed one of these stays removed, since the set has not
expired. `RemoveTask` puts its key among the removed ones, and a poll only takes texts away. -/
lemma Current.step (h : Current codec evs r) {ev : Event ρ} (hord : orderly codec r ev = true) :
    Current codec (evs ++ [ev]) (step codec r ev) := by
  intro minute body t hbody ht
  cases ev with
  | addTask clock key task executeAt =>
    simp only [orderly, Bool.and_eq_true] at hord
    obtain ⟨hlive, hother⟩ := hord
    rw [step_addTask_eq] at hbody ⊢
    cases htext : text codec key task with
    | none =>
      simp only [htext] at hbody ⊢
      simpa [latest, htext] using h minute body t hbody ht
    | some new =>
      simp only [htext, luaAddTasks] at hbody ⊢
      by_cases hmin : minute = getTimeMinuteStr executeAt
      · subst hmin
        rw [update_self] at hbody ⊢
        rw [ZSet.zadd, mem_insert] at hbody
        rcases hbody with rfl | hbody
        · simp [latest, key_of_text htext ht, htext]
        · have hstored := all_eq_true.1 hother _ (mem_storedKeys hbody ht)
          simp only [htext, Option.some.injEq, Bool.or_eq_true, decide_eq_true_eq] at hstored
          rcases hstored with hne | rfl
          · refine (h _ body t hbody ht).imp (fun hmem => ?_) fun hnew => ?_
            · exact mem_srem.2 ⟨hne, live_of_unexpired hlive hbody ht hmem⟩
            · simpa [latest, Ne.symm hne] using hnew
          · simp [latest, key_of_text htext ht, htext]
      · rw [update_of_ne hmin] at hbody ⊢
        simpa [latest, Ne.symm hmin] using h minute body t hbody ht
  | removeTask clock key executeAt =>
    by_cases hmin : minute = getTimeMinuteStr executeAt
    · subst hmin
      by_cases hkey : t.key = key
      · exact .inl (mem_luaDeleteTask.2 (.inl hkey))
      · refine (h _ body t hbody ht).imp (fun hmem => ?_) fun hnew => ?_
        · exact mem_luaDeleteTask.2 (.inr (live_of_unexpired hord hbody ht hmem))
        · simpa [latest, Ne.symm hkey] using hnew
    · have hset : (RTimeWheel.step codec r (.removeTask clock key executeAt)).deleteSets minute =
          r.deleteSets minute := update_of_ne hmin ..
      rw [hset]
      simpa [latest, Ne.symm hmin] using h minute body t hbody ht
  | poll clock now =>
    have hset : (RTimeWheel.step codec r (.poll clock now)).deleteSets = r.deleteSets := rfl
    rw [hset]
    simpa [latest] using h minute body t (mem_step_poll hbody) ht

/-- **Polls return the newest texts only.** In every sequence of calls that all meet the condition,
a task that a poll returns is the one that was added last for its key and the minute of the poll,
and it was not removed since. -/
theorem poll_returns_latest (codec : Codec ρ) (evs : List (Event ρ))
    (hord : ∀ (n : ℕ) ev, evs[n]? = some ev → orderly codec (run codec {} (evs.take n)) ev = true)
    (n : ℕ) (clock : ℤ) (now : Time) (hpoll : evs[n]? = some (.poll clock now)) :
    ∀ t ∈ (getExecutableTasks codec (run codec {} (evs.take n)) clock now).2,
      (latest codec (getTimeMinuteStr now) t.key (evs.take n)).bind codec.unmarshal = some t := by
  have hcurrent : ∀ n, Current codec (evs.take n) (run codec {} (evs.take n)) := by
    intro n
    induction n with
    | zero =>
      intro minute body t hbody
      cases hbody
    | succ n ih =>
      cases hev : evs[n]? with
      | none =>
        have hlen := getElem?_eq_none_iff.1 hev
        rwa [take_of_length_le (by omega), ← take_of_length_le hlen]
      | some ev =>
        rw [take_add_one, hev, run, foldl_append]
        exact ih.step (hord n ev hev)
  intro t ht
  obtain ⟨⟨body, score, hlookup, -, -, hdecode⟩, hnot⟩ := mem_getExecutableTasks.1 ht
  have hbody : body ∈ (run codec {} (evs.take n)).tasks (getTimeMinuteStr now) := by
    rw [← lookup_isSome, hlookup]
    rfl
  rcases hcurrent n _ body t hbody hdecode with hmem | hnew
  · exact absurd (live_of_unexpired (hord n _ hpoll) hbody hdecode hmem) hnot
  · rw [hnew]
    exact hdecode

/-- A task is removed before its minute, and another one is polled. -/
theorem poll_returns_latest_removed :
    let evs : List (Event Bool) := [.addTask 10 "a" (some (getTask "" true)) (utcMilli 30500),
      .addTask 10 "b" (some (getTask "" true)) (utcMilli 30500),
      .removeTask 11 "a" (utcMilli 30500), .poll 31 (utcMilli 31000)]
    let polled := (getExecutableTasks getCodec (run getCodec {} (evs.take 3)) 31 (utcMilli 31000)).2
    getTask "b" true ∈ polled ∧
      ∀ t ∈ polled, (latest getCodec 0 t.key (evs.take 3)).bind getCodec.unmarshal = some t := by
  intro evs polled
  refine ⟨mem_getExecutableTasks.2 ⟨⟨getText "b" true, 30, by decide +kernel, by decide, by decide,
    rfl⟩, by decide +kernel⟩, ?_⟩
  refine poll_returns_latest getCodec evs (fun n ev hev => ?_) 3 31 (utcMilli 31000) rfl
  rcases n with _ | _ | _ | _ | n <;> cases hev
  all_goals decide +kernel

/-- **Old texts come back.** A key is added twice with different data, and the poll returns the
first task as well. A task is removed five minutes before its minute, the set of removed keys
expires, and the poll returns the task. -/
theorem old_text_returned :
    let again : List (Event Bool) := [.addTask 10 "a" (some (getTask "" true)) (utcMilli 30500),
      .addTask 11 "a" (some (getTask "" false)) (utcMilli 30500)]
    let removed : List (Event Bool) := [.addTask 10 "a" (some (getTask "" true)) (utcMilli 300500),
      .removeTask 11 "a" (utcMilli 300500)]
    latest getCodec 0 "a" again = some (getText "a" false) ∧ latest getCodec 5 "a" removed = none ∧
      getTask "a" true ∈
        (getExecutableTasks getCodec (run getCodec {} again) 31 (utcMilli 31000)).2 ∧
      getTask "a" true ∈
        (getExecutableTasks getCodec (run getCodec {} removed) 301 (utcMilli 301000)).2 := by
  refine ⟨by decide +kernel, by decide +kernel,
    mem_getExecutableTasks.2 ⟨⟨getText "a" true, 30, ?_⟩, by decide +kernel⟩,
    mem_getExecutableTasks.2 ⟨⟨getText "a" true, 300, ?_⟩, by decide +kernel⟩⟩
  · exact ⟨by decide +kernel, by decide, by decide, rfl⟩
  · exact ⟨by decide +kernel, by decide, by decide, rfl⟩

end Yukino.TimeWheel.RTimeWheel
