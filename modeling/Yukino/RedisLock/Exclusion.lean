import Mathlib.Data.Fintype.Card
import Yukino.RedisLock.RedLock

set_option autoImplicit false

/-!
# Mutual exclusion of `RedLock`

## Main definitions

* `Client` — a client whose `RedLock` was made by `newRedLock`.
* `Local` — what holds of one client between any two steps.

## Main results

* `holder_unique` — at most one client at a time is between a successful `Lock`
  and its `Unlock`.

## Design

A node that holds the token of a client keeps it until that client deletes it: `SET .. NX` finds
the key taken, and the scripts check the token first. So the steps of the others keep whatever is
known of a client (`Local.mono`), and only its own steps need an argument. A holder owns more than
half of the nodes, and two such sets of nodes meet.
-/

namespace Yukino.Locks

open List Function

open Redis (Fate)

/-! ## Commands on one key -/

section Commands

variable {ν : Type} {l : RedisLock ν} {fate : Fate} {s : Redis.Str} {v : String}

lemma setNEX_of_some (h : s.get = some v) (key value : String) (seconds : ℤ) :
    (setNEX key value seconds s).1 ≠ some 1 ∧ (setNEX key value seconds s).2 = s := by
  unfold setNEX
  rw [Redis.Str.setNX_of_some h]
  split_ifs <;> simp

lemma get_of_setNEX {key value : String} {seconds : ℤ}
    (h : (setNEX key value seconds s).1 = some 1) :
    (setNEX key value seconds s).2.get = some value := by
  cases s with
  | some entry => exact absurd h (setNEX_of_some rfl key value seconds).1
  | none =>
    unfold setNEX at h ⊢
    split_ifs at h ⊢
    rfl

namespace RedisLock

/-- `SET .. NX` changes nothing on a key that is there. -/
lemma tryLock_of_some (h : s.get = some v) :
    (l.tryLock fate s).1 = false ∧ (l.tryLock fate s).2 = s := by
  obtain ⟨hreply, hkey⟩ := setNEX_of_some h l.getLockKey l.token l.expireSeconds
  unfold tryLock
  rcases fate.send_eq (setNEX l.getLockKey l.token l.expireSeconds) s with h | h | h <;> rw [h]
  · exact ⟨decide_eq_false hreply, hkey⟩
  · exact ⟨rfl, rfl⟩
  · exact ⟨rfl, hkey⟩

lemma get_of_tryLock (h : (l.tryLock fate s).1 = true) :
    (l.tryLock fate s).2.get = some l.token := by
  unfold tryLock at h ⊢
  rcases fate.send_eq (setNEX l.getLockKey l.token l.expireSeconds) s with h' | h' | h' <;>
    rw [h'] at h ⊢
  · exact get_of_setNEX (of_decide_eq_true h)
  · cases h
  · cases h

/-- The script deletes no token but its own. -/
lemma unlock_of_ne (h : s.get = some v) (hv : v ≠ l.token) : (l.unlock fate s).2 = s := by
  have hscript : luaCheckAndDelete l.token s = (0, s) := by
    unfold luaCheckAndDelete
    rw [h, if_neg]
    intro heq
    exact hv (Option.some.inj heq)
  unfold unlock
  rcases fate.send_eq (eval (luaCheckAndDelete l.token)) s with h' | h' | h' <;> rw [h']
  · rw [eval, hscript]
  · rw [eval, hscript]

lemma get_delayExpire (seconds : ℤ) : (l.delayExpire fate s seconds).2.get = s.get := by
  have hscript : (luaCheckAndExpire l.token seconds s).2.get = s.get := by
    unfold luaCheckAndExpire
    split_ifs
    · exact Redis.Str.get_expire s seconds
    · rfl
  unfold delayExpire
  rcases fate.send_eq (eval (luaCheckAndExpire l.token seconds)) s with h | h | h <;> rw [h]
  · exact hscript
  · exact hscript

end RedisLock

end Commands

/-! ## Clients of `newRedLock` -/

/-- A client: what it called `newRedLock` with, and what it got. -/
structure Client (ν : Type) where
  token : String
  key : String
  confs : List ν
  opts : RedLockOptions
  redLock : RedLock ν
  newRedLock_eq : newRedLock token key confs opts = .ok redLock

namespace Client

variable {ν : Type} (cl : Client ν)

def lockKey : String :=
  "REDIS_LOCK_PREFIX_" ++ cl.key

lemma locks_eq : ∃ opts, cl.redLock.locks = cl.confs.map fun conf =>
    newRedisLock cl.token cl.key conf opts := by
  have h := cl.newRedLock_eq
  unfold newRedLock at h
  dsimp only at h
  split_ifs at h
  rw [← Except.ok.inj h]
  exact ⟨_, rfl⟩

lemma length_locks : cl.redLock.locks.length = cl.confs.length := by
  obtain ⟨opts, h⟩ := cl.locks_eq
  rw [h, length_map]

lemma of_mem_locks {l : RedisLock ν} (hl : l ∈ cl.redLock.locks) :
    l.getLockKey = cl.lockKey ∧ l.token = cl.token := by
  obtain ⟨opts, h⟩ := cl.locks_eq
  rw [h] at hl
  obtain ⟨conf, -, rfl⟩ := mem_map.1 hl
  exact ⟨rfl, rfl⟩

end Client

/-! ## What is known of one client -/

/-- The locks that a call of `Lock` took and has not given back. -/
def Phase.taken {ν : Type} : Phase ν → List (RedisLock ν)
  | .idle => []
  | .locking _ _ acquired => acquired
  | .rollback rest => rest
  | .unlocking _ => []

/-- The lists of a client's loops hold its own locks, and those that `Lock` counts are on different
nodes, each of which has the token. -/
def Phase.Sound {ν : Type} (cl : Client ν) (owns : ν → Prop) : Phase ν → Prop
  | .idle => True
  | .locking rest successCnt acquired =>
    rest ⊆ cl.redLock.locks ∧ acquired ⊆ cl.redLock.locks ∧ successCnt = acquired.length ∧
      (acquired.map (·.client)).Nodup ∧ ∀ l ∈ acquired, owns l.client
  | .rollback rest => rest ⊆ cl.redLock.locks
  | .unlocking rest => rest ⊆ cl.redLock.locks

/-- A client in a phase, which owns some nodes: a holder owns more than half of them, and will give
back none of these before its `Unlock`. -/
structure Local {ν : Type} [Fintype ν] (cl : Client ν) (owns : ν → Prop) (phase : Phase ν)
    (holds : Bool) : Prop where
  sound : phase.Sound cl owns
  majority : holds = true → (∀ rest, phase ≠ .unlocking rest) ∧
    ∃ H : Finset ν, Fintype.card ν < 2 * H.card ∧ (∀ i ∈ H, owns i) ∧
      ∀ l ∈ phase.taken, l.client ∉ H

section LocalLemmas

variable {ν : Type} {cl : Client ν} {owns owns' : ν → Prop} {phase : Phase ν} {holds : Bool}

lemma Phase.Sound.mono (h : phase.Sound cl owns) (hmono : ∀ i, owns i → owns' i) :
    phase.Sound cl owns' := by
  cases phase with
  | idle => trivial
  | rollback | unlocking => exact h
  | locking rest successCnt acquired =>
    obtain ⟨hrest, hacquired, hcnt, hnodup, howns⟩ := h
    exact ⟨hrest, hacquired, hcnt, hnodup, fun l hl => hmono _ (howns l hl)⟩

variable [Fintype ν]

lemma Local.mono (h : Local cl owns phase holds) (hmono : ∀ i, owns i → owns' i) :
    Local cl owns' phase holds := by
  refine ⟨h.sound.mono hmono, fun hholds => ?_⟩
  obtain ⟨hphase, H, hcard, hH, htaken⟩ := h.majority hholds
  exact ⟨hphase, H, hcard, fun i hi => hmono i (hH i hi), htaken⟩

/-- A phase in which nothing is taken. -/
lemma Local.of_taken_nil {phase' : Phase ν} (h : Local cl owns phase holds)
    (hsound : phase'.Sound cl owns) (hphase : ∀ rest, phase' ≠ .unlocking rest)
    (htaken : phase'.taken = []) : Local cl owns phase' holds := by
  refine ⟨hsound, fun hholds => ?_⟩
  obtain ⟨-, H, hcard, hH, -⟩ := h.majority hholds
  refine ⟨hphase, H, hcard, hH, fun l hl => ?_⟩
  rw [htaken] at hl
  cases hl

variable {l : RedisLock ν} {rest acquired : List (RedisLock ν)} {n : ℕ}

/-- The loop of `Lock` goes on without a lock that it did not get. -/
lemma Local.skip
    (h : Local cl owns (.locking (l :: rest) n acquired) holds) :
    Local cl owns (.locking rest n acquired) holds := by
  obtain ⟨hrest, hsound⟩ := h.sound
  refine ⟨⟨fun x hx => hrest (mem_cons_of_mem _ hx), hsound⟩, fun hholds => ?_⟩
  obtain ⟨-, H, hH⟩ := h.majority hholds
  exact ⟨nofun, H, hH⟩

/-- The loop of `Lock` goes on with a lock that it got, on a node that was free. -/
lemma Local.take
    (h : Local cl owns (.locking (l :: rest) n acquired) holds) (hfree : ¬ owns l.client)
    (hmono : ∀ i, owns i → owns' i) (howns : owns' l.client) :
    Local cl owns' (.locking rest (n + 1) (acquired ++ [l])) holds := by
  obtain ⟨hrest, hacquired, hcnt, hnodup, hall⟩ := h.sound
  have hl : l ∈ cl.redLock.locks := hrest (mem_cons_self ..)
  refine ⟨⟨fun x hx => hrest (mem_cons_of_mem _ hx), ?_, ?_, ?_, ?_⟩, fun hholds => ?_⟩
  · exact append_subset.2 ⟨hacquired, by simpa using hl⟩
  · rw [hcnt, length_append, length_singleton]
  · rw [map_append, map_singleton]
    refine hnodup.append (nodup_singleton _) ?_
    rw [disjoint_singleton]
    intro hmem
    -- a node among those counted is owned, so it was not free
    obtain ⟨x, hx, hclient⟩ := mem_map.1 hmem
    exact hfree (hclient ▸ hall x hx)
  · intro x hx
    rcases mem_append.1 hx with hx | hx
    · exact hmono _ (hall x hx)
    · rw [mem_singleton.1 hx]
      exact howns
  · obtain ⟨-, H, hcard, hH, htaken⟩ := h.majority hholds
    refine ⟨nofun, H, hcard, fun i hi => hmono i (hH i hi), fun x hx => ?_⟩
    rcases mem_append.1 hx with hx | hx
    · exact htaken x hx
    · rw [mem_singleton.1 hx]
      exact fun hmem => hfree (hH _ hmem)

/-- The nodes that a successful `Lock` counted are more than half of all nodes. -/
lemma Local.hold [DecidableEq ν]
    (hnodes : cl.confs.length = Fintype.card ν)
    (h : Local cl owns (.locking [] n acquired) holds)
    (hn : ¬ n < cl.redLock.locks.length / 2 + 1) : Local cl owns .idle true := by
  obtain ⟨-, -, hcnt, hnodup, hall⟩ := h.sound
  refine ⟨trivial, fun _ => ⟨nofun, (acquired.map (·.client)).toFinset, ?_,
    fun i hi => ?_, fun l hl => by cases hl⟩⟩
  · rw [toFinset_card_of_nodup hnodup, length_map, ← hnodes, ← cl.length_locks]
    omega
  · obtain ⟨l, hl, rfl⟩ := mem_map.1 (mem_toFinset.1 hi)
    exact hall l hl

/-- A `Lock` that failed has its locks to give back. -/
lemma Local.fail
    (h : Local cl owns (.locking [] n acquired) holds) : Local cl owns (.rollback acquired) holds :=
  ⟨h.sound.2.1, fun hholds => ⟨nofun, (h.majority hholds).2⟩⟩

/-- A lock is given back, on a node that a holder does not count on. -/
lemma Local.giveBack
    (h : Local cl owns (.rollback (l :: rest)) holds)
    (hmono : ∀ i, i ≠ l.client → owns i → owns' i) : Local cl owns' (.rollback rest) holds := by
  refine ⟨fun x hx => h.sound (mem_cons_of_mem _ hx), fun hholds => ?_⟩
  obtain ⟨-, H, hcard, hH, htaken⟩ := h.majority hholds
  refine ⟨nofun, H, hcard, fun i hi => hmono i ?_ (hH i hi), (forall_mem_cons.1 htaken).2⟩
  rintro rfl
  exact htaken l (mem_cons_self ..) hi

/-- A client in `Unlock` holds nothing. -/
lemma Local.of_unlocking (hrest : rest ⊆ cl.redLock.locks) :
    Local cl owns (.unlocking rest) false :=
  ⟨hrest, fun h => by cases h⟩

lemma Local.not_holds (h : Local cl owns (.unlocking rest) holds) : holds = false := by
  cases holds with
  | false => rfl
  | true => exact absurd rfl ((h.majority rfl).1 rest)

end LocalLemmas

/-! ## Steps -/

section Steps

variable {C ν : Type} [DecidableEq C] [DecidableEq ν]

/-- The node has the token under the key. -/
def Owns (s : State C ν) (key token : String) (i : ν) : Prop :=
  (s.nodes i key).get = some token

variable {s s' : State C ν} {c : C} {l : RedisLock ν} {fate : Fate} {key token : String} {i : ν}

omit [DecidableEq C] in
lemma Owns.setKey {j : ν} {k : String} {str : Redis.Str} (h : Owns s key token i)
    (hstr : i = j → key = k → (s.nodes j k).get = some token → str.get = some token) :
    Owns (s.setKey j k str) key token i := by
  unfold Owns State.setKey at *
  by_cases hi : i = j
  · subst hi
    by_cases hk : key = k
    · subst hk
      simpa using hstr rfl rfl h
    · simpa [hk] using h
  · simpa [hi] using h

variable (redLock : C → RedLock ν)

lemma nodes_tryNext (rest acquired : List (RedisLock ν)) (n : ℕ) (cost : ℤ) :
    (tryNext redLock s c l rest n acquired fate cost).nodes =
      (s.setKey l.client l.getLockKey
        (l.tryLock fate (s.nodes l.client l.getLockKey)).2).nodes := by
  unfold tryNext
  dsimp only
  split_ifs <;> rfl

lemma tryNext_eq (s : State C ν) (c : C) (l : RedisLock ν) (fate : Fate)
    (rest acquired : List (RedisLock ν)) (n : ℕ) (cost : ℤ) :
    let s' := tryNext redLock s c l rest n acquired fate cost
    s'.holds = s.holds ∧ (s'.phase = update s.phase c (.locking rest n acquired) ∨
      (l.tryLock fate (s.nodes l.client l.getLockKey)).1 = true ∧
        s'.phase = update s.phase c (.locking rest (n + 1) (acquired ++ [l]))) := by
  unfold tryNext
  dsimp only
  split_ifs with htake
  · exact ⟨rfl, .inr ⟨(Bool.and_eq_true_iff.1 htake).1, rfl⟩⟩
  · exact ⟨rfl, .inr ⟨(Bool.and_eq_true_iff.1 htake).1, rfl⟩⟩
  · exact ⟨rfl, .inl rfl⟩
  · exact ⟨rfl, .inl rfl⟩

/-- A round of `Lock` takes no token away. -/
lemma Owns.tryNext (h : Owns s key token i) (rest acquired : List (RedisLock ν)) (n : ℕ)
    (cost : ℤ) : Owns (tryNext redLock s c l rest n acquired fate cost) key token i := by
  unfold Owns
  rw [nodes_tryNext]
  refine h.setKey fun _ _ hget => ?_
  rw [(RedisLock.tryLock_of_some hget).2]
  exact hget

omit [DecidableEq C] in
/-- A check-and-delete takes away at most the token of its own lock, on its own node. -/
lemma Owns.unlockOne (h : Owns s key token i) (hne : token ≠ l.token ∨ i ≠ l.client) :
    Owns (unlockOne s l fate) key token i := by
  refine h.setKey fun hi _ hget => ?_
  have hkeep : (l.unlock fate (s.nodes l.client l.getLockKey)).2 = s.nodes l.client l.getLockKey :=
    RedisLock.unlock_of_ne hget (hne.resolve_right (not_not_intro hi))
  exact (congrArg Redis.Str.get hkeep).trans hget

/-- A check-and-expire takes no token away. -/
lemma Owns.runDog (h : Owns s key token i) : Owns (runDog s c l fate) key token i := by
  have hkey : Owns (s.setKey l.client l.getLockKey
      (l.delayExpire fate (s.nodes l.client l.getLockKey) 15).2) key token i :=
    h.setKey fun _ _ hget => (RedisLock.get_delayExpire 15).trans hget
  unfold Locks.runDog
  dsimp only
  split_ifs
  · exact hkey
  · exact hkey

/-- A node whose `SET .. NX` succeeds was free, and has the token afterwards. -/
lemma owns_of_tryLock (hok : (l.tryLock fate (s.nodes l.client l.getLockKey)).1 = true)
    (rest acquired : List (RedisLock ν)) (n : ℕ) (cost : ℤ) :
    (∀ v, ¬ Owns s l.getLockKey v l.client) ∧
      Owns (tryNext redLock s c l rest n acquired fate cost) l.getLockKey l.token l.client := by
  constructor
  · intro v hv
    rw [(RedisLock.tryLock_of_some hv).1] at hok
    cases hok
  · unfold Owns
    rw [nodes_tryNext]
    simpa [State.setKey] using RedisLock.get_of_tryLock hok

/-! ## Runs -/

variable [Fintype ν] (client : C → Client ν)

/-- What is known of every client in a state. -/
def Inv (s : State C ν) : Prop :=
  ∀ c, Local (client c) (Owns s (client c).lockKey (client c).token) (s.phase c) (s.holds c)

variable {client}

section

variable (hinv : Inv client s)
include hinv

omit [DecidableEq ν] in
/-- A step of one client that leaves the calls of the others where they are, and their tokens. -/
lemma Inv.of_local {phase : Phase ν} {holds : Bool}
    (hphase : s'.phase = update s.phase c phase)
    (hholds : s'.holds = update s.holds c holds)
    (howns : ∀ d, d ≠ c → ∀ i, Owns s (client d).lockKey (client d).token i →
      Owns s' (client d).lockKey (client d).token i)
    (hlocal : Local (client c) (Owns s' (client c).lockKey (client c).token) phase holds) :
    Inv client s' := by
  intro d
  rw [hphase, hholds]
  by_cases hd : d = c
  · subst hd
    rw [update_self, update_self]
    exact hlocal
  · rw [update_of_ne hd, update_of_ne hd]
    exact (hinv d).mono (howns d hd)

omit [DecidableEq ν] in
/-- A step that only moves one client on. -/
lemma Inv.setPhase {phase : Phase ν}
    (hlocal : Local (client c) (Owns s (client c).lockKey (client c).token) phase (s.holds c)) :
    Inv client (s.setPhase c phase) :=
  hinv.of_local rfl (update_eq_self c s.holds).symm (fun _ _ _ h => h) hlocal

/-- **The loop of `Lock` keeps the invariant.** -/
lemma Inv.tryNext {rest acquired : List (RedisLock ν)} {n : ℕ} (cost : ℤ)
    (hphase : s.phase c = .locking (l :: rest) n acquired) :
    Inv client
      (tryNext (fun c => (client c).redLock) s c l rest n acquired fate cost) := by
  have hlocal := hinv c
  rw [hphase] at hlocal
  obtain ⟨hkey, htoken⟩ := (client c).of_mem_locks (hlocal.sound.1 (mem_cons_self ..))
  have hmono : ∀ key token i, Owns s key token i → Owns
      (Locks.tryNext (fun c => (client c).redLock) s c l rest n acquired fate cost)
      key token i :=
    fun key token i h => h.tryNext _ rest acquired n cost
  obtain ⟨hholds, hskip | ⟨hok, htake⟩⟩ :=
    tryNext_eq (fun c => (client c).redLock) s c l fate rest acquired n cost
  all_goals rw [← update_eq_self c s.holds] at hholds
  · exact hinv.of_local hskip hholds (fun d _ i => hmono _ _ i) (hlocal.skip.mono (hmono _ _))
  · obtain ⟨hfree, howns⟩ := owns_of_tryLock (fun c => (client c).redLock) hok rest acquired n cost
    rw [hkey, htoken] at howns
    rw [hkey] at hfree
    exact hinv.of_local htake hholds (fun d _ i => hmono _ _ i)
      (hlocal.take (hfree _) (hmono _ _) howns)

/-- A check-and-delete of a client is of its own token only, so the others keep theirs. -/
lemma Inv.unlockOne (htoken : Function.Injective fun c => (client c).token)
    (hl : l ∈ (client c).redLock.locks) {phase : Phase ν}
    (hlocal : Local (client c) (Owns (unlockOne s l fate) (client c).lockKey (client c).token)
      phase (s.holds c)) : Inv client ((unlockOne s l fate).setPhase c phase) := by
  refine hinv.of_local rfl (update_eq_self c s.holds).symm (fun d hd i h => ?_) hlocal
  refine h.unlockOne (.inl fun heq => hd (htoken ?_))
  rw [((client c).of_mem_locks hl).2] at heq
  exact heq

/-- A watch dog of a client changes no token. -/
lemma Inv.runDog : Inv client (runDog s c l fate) := by
  obtain ⟨hphase, hholds⟩ : (Locks.runDog s c l fate).phase = s.phase ∧
      (Locks.runDog s c l fate).holds = s.holds := by
    unfold Locks.runDog
    dsimp only
    split_ifs
    · exact ⟨rfl, rfl⟩
    · exact ⟨rfl, rfl⟩
  intro d
  rw [hphase, hholds]
  exact (hinv d).mono fun i h => h.runDog

/-- The end of the loop of `Lock`. -/
lemma Inv.finishLock
    (hnodes : (client c).confs.length = Fintype.card ν) {n : ℕ} {acquired : List (RedisLock ν)}
    (hphase : s.phase c = .locking [] n acquired) :
    Inv client (finishLock (fun c => (client c).redLock) s c n acquired) := by
  have hlocal := hinv c
  rw [hphase] at hlocal
  unfold Locks.finishLock
  split_ifs with hn
  · exact hinv.setPhase hlocal.fail
  · exact hinv.of_local rfl rfl (fun _ _ _ h => h) (hlocal.hold hnodes hn)

omit [DecidableEq ν] in
/-- The start of `Unlock`: from here on, the client holds nothing. -/
lemma Inv.unlock :
    Inv client ((s.setHolds c false).setPhase c (.unlocking (client c).redLock.locks)) :=
  hinv.of_local rfl rfl (fun _ _ _ h => h) (Local.of_unlocking (List.Subset.refl _))

end

/-- **Every step keeps the invariant.** -/
lemma Inv.step (hnodes : ∀ c, (client c).confs.length = Fintype.card ν)
    (htoken : Function.Injective fun c => (client c).token) (s : State C ν) (e : Event C ν)
    (s' : State C ν) (hinv : Inv client s)
    (hstep : step (fun c => (client c).redLock) s e = some s') : Inv client s' := by
  unfold Locks.step at hstep
  split at hstep
  case h_1 c =>
    split at hstep <;> cases hstep
    next hphase =>
    have hlocal := hinv c
    refine hinv.setPhase (hlocal.of_taken_nil ?_ nofun rfl)
    exact ⟨List.Subset.refl _, nil_subset _, rfl, nodup_nil, fun l hl => by cases hl⟩
  case h_2 c fate cost =>
    split at hstep <;> cases hstep
    next hphase => exact hinv.tryNext cost hphase
  case h_3 c fate =>
    split at hstep <;> cases hstep
    next l rest hphase =>
      have hlocal := hinv c
      rw [hphase] at hlocal
      refine hinv.unlockOne htoken (hlocal.sound (mem_cons_self ..)) ?_
      exact hlocal.giveBack fun i hi h => h.unlockOne (.inr hi)
    next l rest hphase =>
      have hlocal := hinv c
      rw [hphase] at hlocal
      refine hinv.unlockOne htoken (hlocal.sound (mem_cons_self ..)) ?_
      rw [hlocal.not_holds]
      exact Local.of_unlocking fun x hx => hlocal.sound (mem_cons_of_mem _ hx)
  case h_4 c =>
    split at hstep <;> cases hstep
    next hphase => exact hinv.finishLock (hnodes c) hphase
    next hphase => exact hinv.setPhase ((hinv c).of_taken_nil trivial nofun rfl)
    next hphase => exact hinv.setPhase ((hinv c).of_taken_nil trivial nofun rfl)
  case h_5 c =>
    split at hstep <;> cases hstep
    exact hinv.unlock
  case h_6 c i fate =>
    split at hstep
    · split_ifs at hstep
      cases hstep
      exact hinv.runDog
    · cases hstep
  case h_7 c i =>
    cases hstep
    exact hinv

/-- **Mutual exclusion.** Let any number of clients, with different tokens, each have made a
`RedLock` over all nodes. However their commands interleave, two clients of one key are never both
between a successful `Lock` and their `Unlock`.

**Proof sketch.** Each of the two owns more than half of the nodes under the key (`Inv.step`, along
the run). A node in both sets has one value, so the tokens are the same. -/
theorem holder_unique (hnodes : ∀ c, (client c).confs.length = Fintype.card ν)
    (htoken : Function.Injective fun c => (client c).token) {es : List (Event C ν)}
    {s : State C ν} (hrun : Runs.run (step fun c => (client c).redLock) {} es = some s) {c d : C}
    (hkey : (client c).key = (client d).key) (hc : s.holds c = true) (hd : s.holds d = true) :
    c = d := by
  have hinit : Inv client ({} : State C ν) := fun c => ⟨trivial, fun h => by cases h⟩
  have hinv : Inv client s := Runs.invariant (Inv.step hnodes htoken) hinit hrun
  obtain ⟨-, H, hH, hownsc, -⟩ := (hinv c).majority hc
  obtain ⟨-, K, hK, hownsd, -⟩ := (hinv d).majority hd
  obtain ⟨i, hi⟩ : (H ∩ K).Nonempty := by
    refine Finset.inter_nonempty_of_card_lt_card_add_card (Finset.subset_univ H)
      (Finset.subset_univ K) ?_
    rw [Finset.card_univ]
    omega
  have hsame : (client c).lockKey = (client d).lockKey := by
    unfold Client.lockKey
    rw [hkey]
  have hcd : some (client c).token = some (client d).token := by
    rw [← hownsc i (Finset.mem_of_mem_inter_left hi), hsame]
    exact hownsd i (Finset.mem_of_mem_inter_right hi)
  exact htoken (Option.some.inj hcd)

end Steps

/-- Two clients with a `RedLock` over three nodes. -/
def twoClients (c : Bool) : Client (Fin 3) where
  token := if c then "7_1" else "7_2"
  key := "order"
  confs := [0, 1, 2]
  opts := { expireDuration := 60000000000 }
  redLock := ⟨⟨50000000, 60000000000⟩, [0, 1, 2].map fun i =>
    newRedisLock (if c then "7_1" else "7_2") "order" i { expireSeconds := 60 }⟩
  newRedLock_eq := rfl

/-- Both clients lock at once; the second gets one node, and gives it back. -/
def contention : List (Event Bool (Fin 3)) :=
  [.lock true, .lock false, .tryNext true .answered 0, .tryNext false .answered 0,
    .tryNext true .answered 0, .tryNext false .answered 0, .tryNext true .lost 0,
    .tryNext false .answered 0, .finish true, .finish false, .unlockNext false .answered,
    .finish false]

theorem holder_unique_contention :
    ∃ s, Runs.run (step fun c => (twoClients c).redLock) {} contention = some s ∧
      s.holds true = true ∧ ∀ d, s.holds d = true → true = d := by
  obtain ⟨s, hrun, hholds⟩ : ∃ s, Runs.run (step fun c => (twoClients c).redLock) {} contention =
      some s ∧ s.holds true = true := by decide +kernel
  exact ⟨s, hrun, hholds, fun d hd =>
    holder_unique (fun _ => rfl) (by decide) hrun rfl hholds hd⟩

end Yukino.Locks
