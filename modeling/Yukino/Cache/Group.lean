import Yukino.Cache.StoreSpec

set_option autoImplicit false

/-!
# Cache groups of `libs/yukino_cache`

A `Group` without peers: `Get` looks into the cache, and on a miss loads the value through a
`SingleFlightGroup` and fills the cache; `Set` and `Delete` write to the cache.

## Main definitions

* `Cache` — the type `Cache`, whose store is created by the first addition.
* `Flights` — the type `SingleFlightGroup` with its calls.
* `Thread` — where a call of `Get`, `Set` or `Delete` is.
* `Group.step`, `Group.run` — interleavings of the calls.

## Main results

* `write_not_undone` — what a lookup returns after a `Set` or `Delete` was set or read later, if no
  load was between its read and its fill.
* `load_undoes_set`, for a load that is: it fills the cache with the old value.

## Design

Every method of `Cache` holds the lock of a bucket, and the methods of `sync.Map` and
`sync.WaitGroup` are atomic, so a step of a thread is one of these. The read of the loader is a
step of its own. Readings of the clock, the outcome of the loader and the time that passes
between `time.Now().Add(g.expiration)` and `time.Until` come with the events. The counters of
`Stats`, `Close`, and peers are left out. A fault of the store ends a run.
-/

namespace Yukino.Caches

open Outcome List Function

/-! ## The cache -/

/-- `Cache`, with its `store` if it is initialized. -/
structure Cache where
  opts : StoreOptions
  store : Option (LruStore ByteView) := none

namespace Cache

/-- `ensureInitialized`. -/
def ensureInitialized (c : Cache) : Except Fault (LruStore ByteView) :=
  match c.store with
  | some store => .ok store
  | none => newStore ByteView c.opts

/-- `Add(key, value)`. -/
def add (c : Cache) (key : String) (value : ByteView) (now : ℤ) : Except Fault Cache := do
  let (store, _) ← (← c.ensureInitialized).set key (some value) now
  .ok { c with store := some store }

/-- `AddWithExpiration(key, value, expirationTime)`, where `expiration` is
`time.Until(expirationTime)`. -/
def addWithExpiration (c : Cache) (key : String) (value : ByteView) (expiration now : ℤ) :
    Except Fault Cache :=
  if expiration ≤ 0 then .ok c
  else do
    let (store, _) ← (← c.ensureInitialized).setWithExpiration key (some value) expiration now
    .ok { c with store := some store }

/-- `Get(ctx, key)`. -/
def get (c : Cache) (key : String) (now : ℤ) : Except Fault (Cache × Option ByteView) :=
  match c.store with
  | none => .ok (c, none)
  | some store => do
    let (store, value, _) ← store.get key now
    .ok ({ c with store := some store }, value.join)

/-- `Delete(key)`. -/
def delete (c : Cache) (key : String) : Except Fault Cache :=
  match c.store with
  | none => .ok c
  | some store => do
    let (store, _, _) ← store.delete key
    .ok { c with store := some store }

/-- A round of the cleanup loop of the store. -/
def cleanup (c : Cache) (order : MapOrder) (now : ℤ) : Except Fault Cache :=
  match c.store with
  | none => .ok c
  | some store => do
    let (store, _) ← store.cleanup order now
    .ok { c with store := some store }

end Cache

/-! ## Single flight -/

/-- What a call of `fn` returns. -/
abbrev Loaded := Except String ByteView

/-- `SingleFlightGroup`: the map from keys to calls, and the result of each call once it is
done. -/
structure Flights where
  m : AList (fun _ : String => ℕ) := ∅
  calls : List (Option Loaded) := []

namespace Flights

/-- `LoadOrStore(key, c)` for a new call `c`: the call in the map, and whether it was there. -/
def loadOrStore (f : Flights) (key : String) : Flights × ℕ × Bool :=
  match f.m.lookup key with
  | some call => (f, call, true)
  | none =>
    ({ m := f.m.insert key f.calls.length, calls := f.calls ++ [none] }, f.calls.length, false)

/-- `c.wg.Done()`, after the result was written. -/
def done (f : Flights) (call : ℕ) (result : Loaded) : Flights :=
  { f with calls := f.calls.set call (some result) }

/-- `m.Delete(key)`. -/
def delete (f : Flights) (key : String) : Flights := { f with m := f.m.erase key }

end Flights

/-! ## The group -/

/-- Where a call is: what its next atomic step is. -/
inductive Thread
  /-- `g.mainCache.Get` in `Get`. -/
  | lookup (key : String)
  /-- `LoadOrStore` in `Do`. -/
  | join (key : String)
  /-- `existing.wg.Wait()` in `Do`. -/
  | wait (call : ℕ)
  /-- `g.mainCache.Get` in the function that `load` passes to `Do`. -/
  | recheck (key : String) (call : ℕ)
  /-- `g.getter.Get` in `loadData`. -/
  | load (key : String) (call : ℕ)
  /-- `g.mainCache.Add` in the function that `load` passes to `Do`. -/
  | fill (key : String) (call : ℕ) (view : ByteView)
  /-- `c.wg.Done()` in `Do`. -/
  | done (key : String) (call : ℕ) (result : Loaded)
  /-- `g.m.Delete(key)` in `Do`. -/
  | forget (key : String) (result : Loaded)
  /-- `g.mainCache.Add` in `Set`. -/
  | set (key : String) (view : ByteView)
  /-- `g.mainCache.Delete` in `Delete`. -/
  | delete (key : String)
  /-- `Get` has returned. -/
  | returned (result : Loaded)
  /-- `Set` or `Delete` has returned. -/
  | finished (err : Option String)
  deriving DecidableEq

/-- The call is about to fill the cache for a key. -/
def Thread.fills (key : String) : Thread → Prop
  | .fill key' _ _ => key' = key
  | _ => False

structure Group where
  mainCache : Cache
  /-- `time.Duration`, in nanoseconds. -/
  expiration : ℤ
  loader : Flights := {}
  threads : List Thread := []

/-- What `g.getter.Get` does. -/
inductive Fetched
  | value (bytes : List UInt8)
  | error (text : String)
  | panic (text : String)
  deriving DecidableEq, Repr

inductive Event
  /-- `Get(ctx, key)` is called. -/
  | get (key : String)
  /-- `Set(ctx, key, value)` is called. -/
  | set (key : String) (value : List UInt8)
  /-- `Delete(ctx, key)` is called. -/
  | delete (key : String)
  /-- The call `tid` makes a step. -/
  | next (tid : ℕ) (now elapsed : ℤ) (fetched : Fetched)
  /-- The cleanup loop of the store makes a round. -/
  | cleanup (order : MapOrder) (now : ℤ)

/-- `NewGroup` with `WithCacheOptions` and `WithExpiration`. -/
def newGroup (opts : StoreOptions) (expiration : ℤ) : Group :=
  { mainCache := { opts := opts }, expiration := expiration }

namespace Group

/-- The addition of a value to the cache, in `Set` and in `load`. -/
def add (g : Group) (key : String) (view : ByteView) (now elapsed : ℤ) : Except Fault Cache :=
  if 0 < g.expiration then
    g.mainCache.addWithExpiration key view (g.expiration - elapsed) now
  else g.mainCache.add key view now

/-- The call `tid` goes on at another place. -/
def goto (g : Group) (tid : ℕ) (t : Thread) : Group := { g with threads := g.threads.set tid t }

/-- A step of the call `tid`, which is at `t`. A call that waits, or has returned, does nothing. -/
def stepThread (g : Group) (tid : ℕ) (t : Thread) (now elapsed : ℤ) (fetched : Fetched) :
    Except Fault Group :=
  match t with
  | .lookup key => do
    let (c, view) ← g.mainCache.get key now
    let g := { g with mainCache := c }
    match view with
    | some view => .ok (g.goto tid (.returned (.ok view)))
    | none => .ok (g.goto tid (.join key))
  | .join key =>
    let (f, call, loaded) := g.loader.loadOrStore key
    let g := { g with loader := f }
    .ok (g.goto tid (if loaded then .wait call else .recheck key call))
  | .wait call =>
    match g.loader.calls[call]?.join with
    | some result => .ok (g.goto tid (.returned result))
    | none => .ok g
  | .recheck key call => do
    let (c, view) ← g.mainCache.get key now
    let g := { g with mainCache := c }
    match view with
    | some view => .ok (g.goto tid (.done key call (.ok view)))
    | none => .ok (g.goto tid (.load key call))
  | .load key call =>
    match fetched with
    | .value bytes => .ok (g.goto tid (.fill key call { b := bytes }))
    | .error text => .ok (g.goto tid (.done key call (.error ("failed to get data: " ++ text))))
    | .panic text =>
      .ok (g.goto tid (.done key call (.error ("singleflight: panic during call: " ++ text))))
  | .fill key call view => do
    let c ← g.add key view now elapsed
    .ok ({ g with mainCache := c }.goto tid (.done key call (.ok view)))
  | .done key call result =>
    .ok ({ g with loader := g.loader.done call result }.goto tid (.forget key result))
  | .forget key result =>
    .ok ({ g with loader := g.loader.delete key }.goto tid (.returned result))
  | .set key view => do
    let c ← g.add key view now elapsed
    .ok ({ g with mainCache := c }.goto tid (.finished none))
  | .delete key => do
    let c ← g.mainCache.delete key
    .ok ({ g with mainCache := c }.goto tid (.finished none))
  | .returned _ => .ok g
  | .finished _ => .ok g

/-- Where a call starts: the checks of the arguments come first. -/
def start : Event → Option Thread
  | .get key => some (if key = "" then .returned (.error "key is required") else .lookup key)
  | .set key value =>
    some (if key = "" then .finished (some "key is required")
      else if value = [] then .finished (some "value is required")
      else .set key { b := value })
  | .delete key =>
    some (if key = "" then .finished (some "key is required") else .delete key)
  | _ => none

def step (g : Group) (ev : Event) : Except Fault Group :=
  match ev with
  | .next tid now elapsed fetched =>
    match g.threads[tid]? with
    | some t => g.stepThread tid t now elapsed fetched
    | none => .ok g
  | .cleanup order now => do .ok { g with mainCache := ← g.mainCache.cleanup order now }
  | ev => .ok { g with threads := g.threads ++ (start ev).toList }

def run (g : Group) : List Event → Except Fault Group
  | [] => .ok g
  | ev :: evs => do (← g.step ev).run evs

/-! ## Where the values of the cache come from -/

/-- The values for a key that a step brings into the group: what `Set` adds to the cache, and
what the loader reads. -/
def brings (g : Group) (key : String) (ev : Event) : List ByteView :=
  match ev with
  | .next tid _ _ fetched =>
    match g.threads[tid]?, fetched with
    | some (.set key' view), _ => if key' = key then [view] else []
    | some (.load key' _), .value bytes => if key' = key then [{ b := bytes }] else []
    | _, _ => []
  | _ => []

/-- The values for a key that the steps of a run bring into the group. -/
def sources (key : String) (g : Group) : List Event → List ByteView
  | [] => []
  | ev :: evs =>
    g.brings key ev ++ match g.step ev with
      | .ok g => sources key g evs
      | .error _ => []

end Group

/-! ## The cache as a source -/

/-- A store serves values with the property `p` for a key. -/
def ServesFrom (key : String) (p : ByteView → Prop) (store : LruStore ByteView) : Prop :=
  ∃ n₀ n₁ spec, LruStore.Serves n₀ n₁ spec store ∧
    ∀ v e, spec key = some (some v, e) → p v

namespace Cache

/-- What the cache holds for a key has the property `p`. -/
def From (key : String) (p : ByteView → Prop) (c : Cache) : Prop :=
  ∀ store, c.store = some store → ServesFrom key p store

variable {key key' : String} {p q : ByteView → Prop} {c : Cache} {view : ByteView} {now : ℤ}

lemma From.mono (h : From key p c) (hpq : ∀ v, p v → q v) : From key q c := by
  intro store hstore
  obtain ⟨n₀, n₁, spec, hserves, hspec⟩ := h store hstore
  exact ⟨n₀, n₁, spec, hserves, fun v e hv => hpq v (hspec v e hv)⟩

lemma from_of_serves {opts : StoreOptions} {store : LruStore ByteView}
    (h : ServesFrom key p store) : From key p { opts := opts, store := some store } := by
  intro store' hstore'
  cases hstore'
  exact h

lemma From.ensureInitialized (h : From key p c) :
    Ensures c.ensureInitialized (ServesFrom key p) := by
  unfold Cache.ensureInitialized
  split
  · rename_i store hstore
    exact .ok (h store hstore)
  · refine (newStore_spec c.opts).ensures.mono fun store hstore => ?_
    obtain ⟨n₀, n₁, hserves, -⟩ := hstore
    exact ⟨n₀, n₁, _, hserves, fun v e hv => by cases hv⟩

/-- After an addition for `key'` the cache holds the new value for it. -/
lemma From.setWithExpiration {store : LruStore ByteView} (h : ServesFrom key p store)
    (key' : String) (view : ByteView) (expiration now : ℤ) (opts : StoreOptions) :
    Ensures (store.setWithExpiration key' (some view) expiration now) fun r =>
      From key (fun v => if key' = key then v = view else p v)
        { opts := opts, store := some r.1 } := by
  obtain ⟨n₀, n₁, spec, hserves, hspec⟩ := h
  refine (hserves.setWithExpiration key' (some view) expiration now).ensures.mono fun r hr => ?_
  refine from_of_serves ⟨n₀, n₁, _, hr.serves, fun v e hv => ?_⟩
  split
  · rename_i heq
    subst heq
    rw [update_self] at hv
    cases hv
    rfl
  · rename_i hne
    rw [update_of_ne (Ne.symm hne)] at hv
    exact hspec v e hv

lemma From.add (h : From key p c) (key' : String) (view : ByteView) (now : ℤ) :
    Ensures (c.add key' view now) (From key fun v => if key' = key then v = view else p v) :=
  h.ensureInitialized.bind fun _ hstore =>
    (From.setWithExpiration hstore key' view 0 now c.opts).bind fun _ hr => .ok hr

lemma From.get (h : From key p c) (key' : String) (now : ℤ) :
    Ensures (c.get key' now) fun r =>
      From key p r.1 ∧ (key' = key → ∀ v, r.2 = some v → p v) := by
  unfold Cache.get
  split
  · refine .ok ⟨h, fun _ v hv => ?_⟩
    cases hv
  · rename_i store hstore
    obtain ⟨n₀, n₁, spec, hserves, hspec⟩ := h store hstore
    refine (hserves.get key' now).ensures.bind fun ⟨store', value, evicted⟩ hr => ?_
    refine .ok ⟨from_of_serves ⟨n₀, n₁, spec, hr.1.serves, hspec⟩, ?_⟩
    rintro rfl v hv
    rw [Option.join_eq_some_iff] at hv
    obtain ⟨e, he, -⟩ := hr.2 (some v) hv
    exact hspec v e he

lemma From.delete (h : From key p c) (key' : String) :
    Ensures (c.delete key') (From key fun v => key' ≠ key ∧ p v) := by
  unfold Cache.delete
  split
  · rename_i hnone
    refine .ok fun store hstore => ?_
    rw [hnone] at hstore
    cases hstore
  · rename_i store hstore
    obtain ⟨n₀, n₁, spec, hserves, hspec⟩ := h store hstore
    refine (hserves.delete key').ensures.bind fun r hr => ?_
    refine .ok (from_of_serves ⟨n₀, n₁, _, hr.serves, fun v e hv => ?_⟩)
    rcases eq_or_ne key key' with rfl | hne
    · rw [update_self] at hv
      cases hv
    · rw [update_of_ne hne] at hv
      exact ⟨hne.symm, hspec v e hv⟩

lemma From.cleanup (h : From key p c) (order : MapOrder) (now : ℤ) :
    Ensures (c.cleanup order now) (From key p) := by
  unfold Cache.cleanup
  split
  · exact .ok h
  · rename_i store hstore
    obtain ⟨n₀, n₁, spec, hserves, hspec⟩ := h store hstore
    refine ((hserves.sweep order _ (.inl rfl)).ensures.bind fun r hr => .ok ?_).bind
      fun r hr => .ok hr
    exact from_of_serves ⟨n₀, n₁, spec, hr.serves, hspec⟩

end Cache

namespace Group

variable {key : String} {p q : ByteView → Prop} {g : Group}

/-- The addition to the cache in `Set` and in `load`. -/
lemma ensures_add (h : g.mainCache.From key p) (key' : String) (view : ByteView)
    (now elapsed : ℤ) :
    Ensures (g.add key' view now elapsed) fun c =>
      c.From key (fun v => if key' = key then v = view else p v) ∨
        (0 < g.expiration ∧ g.expiration ≤ elapsed ∧ c = g.mainCache) := by
  unfold add
  split
  · rename_i hexp
    unfold Cache.addWithExpiration
    split
    · exact .ok (.inr ⟨hexp, by omega, rfl⟩)
    · exact h.ensureInitialized.bind fun _ hstore =>
        (Cache.From.setWithExpiration hstore key' view _ now _).bind fun _ hr => .ok (.inl hr)
  · exact (h.add key' view now).mono fun c hc => .inl hc

/-- Everything for a key that is in the cache, or about to fill it, has the property `p`. -/
structure Traced (key : String) (p : ByteView → Prop) (g : Group) : Prop where
  cache : g.mainCache.From key p
  fills : ∀ call view, Thread.fill key call view ∈ g.threads → p view

lemma Traced.mono (h : Traced key p g) (hpq : ∀ v, p v → q v) : Traced key q g :=
  ⟨h.cache.mono hpq, fun call view hmem => hpq view (h.fills call view hmem)⟩

/-- A call goes on at a place that is not a fill with another value. -/
lemma Traced.goto {c : Cache} {f : Flights} (h : ∀ call view,
      Thread.fill key call view ∈ g.threads → p view) (hc : c.From key p) {tid : ℕ} {t : Thread}
    (ht : ∀ call view, t = .fill key call view → p view) :
    Traced key p (Group.goto { g with mainCache := c, loader := f } tid t) := by
  refine ⟨hc, fun call view hmem => ?_⟩
  rcases mem_or_eq_of_mem_set hmem with hmem | heq
  · exact h call view hmem
  · exact ht call view heq.symm

/-- **A step of a call** adds at most the values that it brings.

**Proof sketch.** By cases on where the call is. Only `Set`, `Delete` and the fill of a load
write to the cache. The fill has a value that the group knew before, and the read of the loader
is what the step brings. -/
lemma Traced.stepThread (h : Traced key p g) {tid : ℕ} {t : Thread}
    (ht : g.threads[tid]? = some t) (now elapsed : ℤ) (fetched : Fetched) :
    Ensures (g.stepThread tid t now elapsed fetched)
      (Traced key fun v => p v ∨ v ∈ g.brings key (.next tid now elapsed fetched)) := by
  have hcache : g.mainCache.From key
      (fun v => p v ∨ v ∈ g.brings key (.next tid now elapsed fetched)) :=
    h.cache.mono fun v hv => .inl hv
  have hfills : ∀ call view, Thread.fill key call view ∈ g.threads →
      p view ∨ view ∈ g.brings key (.next tid now elapsed fetched) :=
    fun call view hmem => .inl (h.fills call view hmem)
  -- a place that is not a fill
  have hother : ∀ {c : Cache} {f : Flights} {t : Thread}, c.From key _ →
      (∀ call view, t ≠ .fill key call view) →
      Traced key _ (Group.goto { g with mainCache := c, loader := f } tid t) :=
    fun hc hne => Traced.goto hfills hc fun call view heq => absurd heq (hne call view)
  unfold Group.stepThread
  cases t with
  | lookup key' | recheck key' call =>
    refine (hcache.get key' now).bind fun ⟨c, view⟩ hr => ?_
    cases view with
    | some | none => exact .ok (hother hr.1 fun call view => by simp)
  | join key' =>
    refine .ok (hother hcache fun call view => ?_)
    split
    · simp
    · simp
  | wait call =>
    dsimp only
    split
    · exact .ok (hother hcache fun call view => by simp)
    · exact .ok ⟨hcache, hfills⟩
  | load key' call =>
    cases fetched with
    | value bytes =>
      refine .ok (Traced.goto hfills hcache fun call' view heq => ?_)
      cases heq
      simp [brings, ht]
    | error | panic => exact .ok (hother hcache fun call view => by simp)
  | fill key' call view =>
    refine (ensures_add hcache key' view now elapsed).bind fun c hc => ?_
    refine .ok (hother ?_ fun call view => by simp)
    rcases hc with hc | ⟨-, -, rfl⟩
    · refine hc.mono fun v hv => ?_
      split_ifs at hv with heq
      · subst heq hv
        exact hfills call v (mem_of_getElem? ht)
      · exact hv
    · exact hcache
  | done | forget => exact .ok (hother hcache fun call view => by simp)
  | set key' view =>
    refine (ensures_add hcache key' view now elapsed).bind fun c hc => ?_
    refine .ok (hother ?_ fun call view => by simp)
    rcases hc with hc | ⟨-, -, rfl⟩
    · refine hc.mono fun v hv => ?_
      split_ifs at hv with heq
      · simp [brings, ht, heq, hv]
      · exact hv
    · exact hcache
  | delete key' =>
    refine (hcache.delete key').bind fun c hc => ?_
    exact .ok (hother (hc.mono fun v hv => hv.2) fun call view => by simp)
  | returned | finished => exact .ok ⟨hcache, hfills⟩

lemma start_ne_fill {ev : Event} {t : Thread} (h : start ev = some t) (key : String) (call : ℕ)
    (view : ByteView) : t ≠ .fill key call view := by
  cases ev with
  | get | delete =>
    simp only [start, Option.some.injEq] at h
    subst h
    split <;> simp
  | set key' value =>
    simp only [start, Option.some.injEq] at h
    subst h
    split
    · simp
    · split <;> simp
  | next | cleanup => cases h

lemma Traced.start (h : Traced key p g) (ev : Event) :
    Traced key p { g with threads := g.threads ++ (start ev).toList } := by
  refine ⟨h.cache, fun call view hmem => ?_⟩
  rcases mem_append.1 hmem with hmem | hmem
  · exact h.fills call view hmem
  · exact absurd rfl (start_ne_fill (Option.mem_toList.1 hmem) key call view)

lemma Traced.step (h : Traced key p g) (ev : Event) :
    Ensures (g.step ev) (Traced key fun v => p v ∨ v ∈ g.brings key ev) := by
  have hp : Traced key (fun v => p v ∨ v ∈ g.brings key ev) g := h.mono fun v hv => .inl hv
  cases ev with
  | next tid now elapsed fetched =>
    unfold Group.step
    dsimp only
    split
    · exact h.stepThread ‹_› now elapsed fetched
    · exact .ok hp
  | cleanup order now =>
    exact (hp.cache.cleanup order now).bind fun c hc => .ok ⟨hc, hp.fills⟩
  | get | set | delete => exact .ok (hp.start _)

/-- **A run** adds at most the values that its steps bring, by induction. -/
lemma Traced.run (h : Traced key p g) (evs : List Event) :
    Ensures (g.run evs) (Traced key fun v => p v ∨ v ∈ sources key g evs) := by
  induction evs generalizing g p with
  | nil => exact .ok (h.mono fun v hv => .inl hv)
  | cons ev evs ih =>
    intro g' hrun
    obtain ⟨g₁, h₁, hrun⟩ := bind_eq_ok.1 hrun
    refine (ih (h.step ev g₁ h₁) g' hrun).mono fun v hv => ?_
    simp only [sources, h₁, mem_append]
    tauto

lemma traced_new (key : String) (opts : StoreOptions) (expiration : ℤ) :
    Traced key (fun _ => True) (newGroup opts expiration) := by
  refine ⟨fun store hstore => ?_, fun call view hmem => ?_⟩
  · cases hstore
  · cases hmem

/-- The call `tid` is about to write to the cache for `Set` or `Delete`, and for `Set` the
value has not expired by then. -/
def Writes (g : Group) (key : String) (tid : ℕ) (elapsed : ℤ) : Prop :=
  g.threads[tid]? = some (.delete key) ∨
    ∃ view, g.threads[tid]? = some (.set key view) ∧ (0 < g.expiration → elapsed < g.expiration)

/-- After the write the cache has nothing for the key but the value of `Set`. -/
lemma Traced.write (h : Traced key p g) {tid : ℕ} {now elapsed : ℤ} {fetched : Fetched}
    (hwrite : g.Writes key tid elapsed) (hquiet : ∀ t ∈ g.threads, ¬ t.fills key) :
    Ensures (g.step (.next tid now elapsed fetched))
      (Traced key (· ∈ g.brings key (.next tid now elapsed fetched))) := by
  have hfills : ∀ call view, Thread.fill key call view ∈ g.threads →
      view ∈ g.brings key (.next tid now elapsed fetched) :=
    fun call view hmem => absurd rfl (hquiet _ hmem)
  unfold Group.step
  rcases hwrite with ht | ⟨view, ht, hfresh⟩
  · dsimp only
    rw [ht]
    refine (h.cache.delete key).bind fun c hc => .ok ?_
    refine Traced.goto hfills (hc.mono fun v hv => absurd rfl hv.1) fun call view heq => ?_
    cases heq
  · dsimp only
    rw [ht]
    refine (ensures_add h.cache key view now elapsed).bind fun c hc => .ok ?_
    refine Traced.goto hfills ?_ fun call view heq => ?_
    · rcases hc with hc | ⟨hexp, hexpired, -⟩
      · refine hc.mono fun v hv => ?_
        rw [if_pos rfl] at hv
        simp [brings, ht, hv]
      · omega
    · cases heq

end Group

open Yukino.Caches.Group

/-- **A `Set` or `Delete` is not undone**, if no load of the key is between the read of its
loader and its fill when the cache is written: whatever a lookup of the key returns after it,
after any further steps, is the value of this or a later `Set`, or was read by the loader
after it.

**Proof sketch.** The write leaves nothing for the key but its own value, in the cache and in
the loads that are under way. Every step after it adds at most the values that it brings. -/
theorem write_not_undone (opts : StoreOptions) (expiration : ℤ) (before after : List Event)
    (key : String) (tid : ℕ) (now elapsed : ℤ) (fetched : Fetched) (g₁ g₂ : Group)
    (hbefore : (newGroup opts expiration).run before = .ok g₁)
    (hwrite : g₁.Writes key tid elapsed) (hquiet : ∀ t ∈ g₁.threads, ¬ t.fills key)
    (hafter : g₁.run (.next tid now elapsed fetched :: after) = .ok g₂)
    (now' : ℤ) (c : Cache) (v : ByteView)
    (hget : g₂.mainCache.get key now' = .ok (c, some v)) :
    v ∈ sources key g₁ (.next tid now elapsed fetched :: after) := by
  have h₁ := (traced_new key opts expiration).run before g₁ hbefore
  obtain ⟨g₁', hstep, hafter⟩ := bind_eq_ok.1 hafter
  have h₁' := h₁.write hwrite hquiet g₁' hstep
  have h₂ := h₁'.run after g₂ hafter
  have hv := (h₂.cache.get key now' _ hget).2 rfl v rfl
  simp only [sources, hstep, mem_append]
  exact hv

/-- The call has returned. -/
def Thread.isOver : Thread → Bool
  | .returned _ => true
  | .finished _ => true
  | _ => false

/-- A step at the instant 1, and what the loader reads if it is at that. -/
def stepOf (tid : ℕ) (bytes : List UInt8) : Event := .next tid 1 0 (.value bytes)

/-- `Get` is called, misses, and its loader reads 1. -/
def loadsOne : List Event :=
  [.get "k", stepOf 0 [], stepOf 0 [], stepOf 0 [], stepOf 0 [1]]

/-- The fill of the load and the rest of `Get`. -/
def fillsAndReturns : List Event := [stepOf 0 [], stepOf 0 [], stepOf 0 []]

/-- A `Set` of 2 after the load of 1 has returned. -/
theorem write_not_undone_after_load :
    ∃ (g₁ g₂ : Group) (c : Cache),
      (newGroup (oneBucket 0) 0).run (loadsOne ++ fillsAndReturns ++ [.set "k" [2]]) = .ok g₁ ∧
      g₁.Writes "k" 1 0 ∧ (∀ t ∈ g₁.threads, ¬ t.fills "k") ∧
      g₁.run [stepOf 1 []] = .ok g₂ ∧ g₂.mainCache.get "k" 1 = .ok (c, some { b := [2] }) ∧
      { b := [2] } ∈ sources "k" g₁ [stepOf 1 []] := by
  obtain ⟨g₁, h₁, hthreads, g₂, h₂, ⟨c, _⟩, h₃, rfl⟩ : ∃ g₁,
      (newGroup (oneBucket 0) 0).run (loadsOne ++ fillsAndReturns ++ [.set "k" [2]]) = .ok g₁ ∧
      g₁.threads = [.returned (.ok { b := [1] }), .set "k" { b := [2] }] ∧
      ∃ g₂, g₁.run [stepOf 1 []] = .ok g₂ ∧
        ∃ r, g₂.mainCache.get "k" 1 = .ok r ∧ r.2 = some { b := [2] } := by decide +kernel
  have hwrite : g₁.Writes "k" 1 0 := by
    refine .inr ⟨{ b := [2] }, ?_, fun hpos => hpos⟩
    rw [hthreads]
    rfl
  have hquiet : ∀ t ∈ g₁.threads, ¬ t.fills "k" := by
    rw [hthreads]
    simp [Thread.fills]
  exact ⟨g₁, g₂, c, h₁, hwrite, hquiet, h₂, h₃,
    write_not_undone (oneBucket 0) 0 _ [] "k" 1 1 0 (.value []) g₁ g₂ h₁ hwrite hquiet h₂ 1 c _ h₃⟩

/-- **A load undoes a `Set`.** The loader of a `Get` has read 1; then `Set` writes 2 and
returns; then the `Get` fills the cache and returns. Now the cache has the value 1, which the
loader had read before the `Set`. -/
theorem load_undoes_set :
    ∃ (g₁ g₂ : Group) (c : Cache),
      (newGroup (oneBucket 0) 0).run (loadsOne ++ [.set "k" [2]]) = .ok g₁ ∧
      g₁.Writes "k" 1 0 ∧ g₁.run (stepOf 1 [] :: fillsAndReturns) = .ok g₂ ∧
      (∀ t ∈ g₂.threads, t.isOver) ∧
      g₂.mainCache.get "k" 1 = .ok (c, some { b := [1] }) ∧
      { b := [1] } ∉ sources "k" g₁ (stepOf 1 [] :: fillsAndReturns) := by
  obtain ⟨g₁, h₁, ht, hsource, g₂, h₂, hover, ⟨c, _⟩, h₃, rfl⟩ : ∃ g₁,
      (newGroup (oneBucket 0) 0).run (loadsOne ++ [.set "k" [2]]) = .ok g₁ ∧
      g₁.threads[1]? = some (.set "k" { b := [2] }) ∧
      ByteView.mk [1] ∉ sources "k" g₁ (stepOf 1 [] :: fillsAndReturns) ∧
      ∃ g₂, g₁.run (stepOf 1 [] :: fillsAndReturns) = .ok g₂ ∧ (∀ t ∈ g₂.threads, t.isOver) ∧
        ∃ r, g₂.mainCache.get "k" 1 = .ok r ∧ r.2 = some { b := [1] } := by decide +kernel
  exact ⟨g₁, g₂, c, h₁, .inr ⟨_, ht, fun hpos => hpos⟩, h₂, hover, h₃, hsource⟩

end Yukino.Caches
