import Yukino.Cache.StoreSpec

set_option autoImplicit false

/-!
# Which writes survive their own `Set`

`SetWithExpiration` puts the entry into the first level of its bucket and then evicts until the
bucket is in its budget: the oldest entries of the first level, the new one at last, and
entries of the second level only when the first one has none. So the new entry is evicted if it
does not fit beside the second level.

## Main definitions

* `Lru.drift` — what a cache counts beyond its entries.
* `Bucket.floor` — what a bucket counts when the new entry is the only one in the first level.
* `LruStore.Room` — the new entry fits beside the second level.
* `LruStore.Survives` — `Get` after `Set` returns the value.

## Main results

* `LruStore.set_survives` — a write with room survives, and if the bytes are counted right no other
  one does.
-/

namespace Yukino.Caches

open MachineInt LinkedRing Outcome List Option

variable {ν : Type} [HasLen ν]

namespace Lru

/-- What the field `bytes` counts beyond the entries that are alive. It is 0 unless an expiry has
overflowed. -/
def drift (c : Lru ν) : ℤ := int64 (c.bytes - c.liveBytes)

variable {c c' : Lru ν} {l : List ℕ} {i : ℕ} {nd z : Slot ν}

lemma int64_bytes_add (c : Lru ν) (x : ℤ) :
    int64 (c.bytes + x) = int64 (c.drift + c.liveBytes + x) := by
  rw [drift, add_assoc, int64_add_left]
  congr 1
  omega

lemma Accounted.drift_eq (h : Accounted c) : c.drift = 0 := by
  have h' : c.bytes = int64 c.liveBytes := h
  rw [drift, h', int64_sub_left, sub_self]
  rfl

lemma Placed.drift_eq {ok : Prop} (h : Placed c c' i z l ok) (hok : ok) : c'.drift = c.drift := by
  rw [drift, h.bytes hok, int64_sub_left]
  congr 1
  omega

/-- If the other slots in use are dead, a slot has all the bytes. -/
lemma Rep.liveBytes_eq (h : Rep c (i :: l)) (hnd : c.m[i - 1]? = some nd) (hdead : Dead c l) :
    c.liveBytes = nd.weight := by
  have hsum : ((c.m.set (i - 1) ({} : Slot ν)).map Slot.weight).sum = 0 := by
    refine sum_eq_zero fun w hw => ?_
    obtain ⟨z, hz, rfl⟩ := mem_map.1 hw
    obtain ⟨j, hj⟩ := getElem?_of_mem hz
    refine weight_of_dead ?_
    by_cases hji : i - 1 = j
    · rw [← hji, List.getElem?_set_self (List.getElem?_eq_some_iff.1 hnd).1,
        some.injEq] at hj
      rw [← hj]
    · rw [getElem?_set_ne hji] at hj
      rcases Nat.lt_or_ge j c.last with hlt | hge
      · have hmem : j + 1 ∈ i :: l := (h.mem _).2 ⟨by omega, by omega⟩
        rcases mem_cons.1 hmem with heq | hmem
        · omega
        · exact hdead _ hmem z hj
      · exact h.unused j z hge hj
  have hset := liveBytes_set hnd ({} : Slot ν)
  rw [weight_of_dead (show ({} : Slot ν).expireAt ≤ 0 from le_rfl)] at hset
  omega

/-- The new entry is in the first slot. -/
structure First (c : Lru ν) (i : ℕ) (l : List ℕ) (nd : Slot ν) : Prop where
  rep : Rep c (i :: l)
  slot : c.m[i - 1]? = some nd
  live : 0 < nd.expireAt

omit [HasLen ν] in
lemma First.entry_eq (h : First c i l nd) : c.entry nd.k = some (nd.v, nd.expireAt) := by
  rw [h.rep.entry_slot mem_cons_self h.slot, Slot.entry, if_pos h.live]

lemma First.weight_le (h : First c i l nd) : nd.weight ≤ c.liveBytes := by
  have hset := liveBytes_set h.slot ({} : Slot ν)
  have hnonneg := liveBytes_nonneg { c with m := c.m.set (i - 1) ({} : Slot ν) }
  change 0 ≤ ((c.m.set (i - 1) ({} : Slot ν)).map Slot.weight).sum at hnonneg
  rw [weight_of_dead (show ({} : Slot ν).expireAt ≤ 0 from le_rfl)] at hset
  omega

/-- **The first slot is evicted last.** `evictOldest` leaves the first slot, or no other one is
alive and the key has no entry afterwards. -/
lemma First.evictOldest (h : First c i l nd) :
    Returns c.evictOldest fun r =>
      r.2.1 = true ∧ r.1.drift = c.drift ∧ r.1.liveBytes ≤ c.liveBytes ∧
      ((∃ l', First r.1 i l' nd) ∨ c.liveBytes = nd.weight ∧ r.1.entry nd.k = none) := by
  refine h.rep.evictOldest.mono fun r hr => ?_
  rcases hr with ⟨-, hbarren⟩ | ⟨nd', -, hr, hlast⟩
  · have hnone := hbarren.2 nd.k
    rw [h.entry_eq] at hnone
    cases hnone
  · obtain ⟨l₁, j, l₂, hsplit, hdead, hburied⟩ := hlast.buried
    obtain ⟨z, hplaced, -, -⟩ := hburied.placed
    have hgrowth := hlast.update.growth
    rw [add_zero] at hgrowth
    refine ⟨by rw [hr], hplaced.drift_eq trivial, hgrowth, ?_⟩
    cases l₁ with
    | nil =>
      -- the first slot is the last one that is alive
      obtain ⟨rfl, rfl⟩ := hsplit
      have hnd : nd' = nd := by
        have hslot := hburied.slot
        rw [h.slot, some.injEq] at hslot
        exact hslot.symm
      refine .inr ⟨h.rep.liveBytes_eq h.slot hdead, ?_⟩
      rw [hlast.update.entry, hnd, if_pos rfl]
    | cons i' l₁ =>
      obtain ⟨rfl, rfl⟩ := hsplit
      have hnodup := (nodup_cons.1 h.rep.ring.nodup).2
      have hj : j ∈ l₁ ++ j :: l₂ := by simp
      have hne : j ≠ i := by
        rintro rfl
        exact (nodup_cons.1 hnodup).1 hj
      have hpos := ((h.rep.mem i).1 mem_cons_self).1
      have hpos' := ((h.rep.mem j).1 (mem_cons_of_mem _ hj)).1
      refine .inl ⟨(l₁ ++ j :: l₂).erase j ++ [j], ?_, ?_, h.live⟩
      · have hrep := hplaced.rep
        rwa [erase_cons_tail (by simpa using hne.symm)] at hrep
      · rw [hplaced.slots, getElem?_set_ne (by omega)]
        exact h.slot

/-- The slot that `put` has written is the first one. -/
lemma Placed.first {ok : Prop} (h : Placed c c' i z (i :: l) ok) (hz : 0 < z.expireAt) :
    First c' i l z := by
  refine ⟨h.rep, ?_, hz⟩
  have hi := (h.rep.mem i).1 mem_cons_self
  have hlen := h.rep.last
  rw [h.slots, length_set] at hlen
  rw [h.slots, getElem?_set_self (by omega)]

/-- `drop` takes the bytes of the entry of the key away. -/
lemma Rep.drop (h : Rep c l) (key : String) :
    Returns (c.drop key) fun c' =>
      (∃ l', Rep c' l') ∧ c'.drift = c.drift ∧ c'.liveBytes = c.liveBytes - c.entryWeight key ∧
      c'.entry key = none ∧ (Accounted c → Accounted c') := by
  refine (h.del key).bind fun r hr => .ok ?_
  obtain ⟨hfound, hupdate, hnone, hsome⟩ := hr
  have hgone : (r.1.forget r.2).entry key = none := by rw [hupdate.entry, if_pos rfl]
  refine ⟨hupdate.rep, ?_, ?_, hgone, hupdate.accounted trivial⟩
  · cases hr₂ : r.2 with
    | none =>
      rw [hnone hr₂]
      rfl
    | some x =>
      obtain ⟨z, hplaced, -⟩ := (hsome x hr₂).2.2.placed
      rw [← hr₂]
      exact hplaced.drift_eq trivial
  · cases hr₂ : r.2 with
    | none =>
      rw [hr₂] at hfound
      have hentry : c.entry key = none := hfound.symm
      rw [hnone hr₂, entryWeight, hentry, sub_zero]
      rfl
    | some x =>
      obtain ⟨hk, -, hburied⟩ := hsome x hr₂
      obtain ⟨z, hplaced, -, hz⟩ := hburied.placed
      have hentry : c.entry key = some (x.2.v, x.2.expireAt) := by
        rw [← hfound, hr₂]
        rfl
      rw [← hr₂, hplaced.liveBytes_eq hburied.slot, weight_of_live hburied.live,
        weight_of_dead hz.le, entryWeight, hentry, hk, add_zero]

omit [HasLen ν] in
lemma Rep.sound (h : Rep c l) : Sound c.doubleLink.size c := by
  refine ⟨rfl, fun _ => ⟨l, h⟩, fun hzero => ?_⟩
  have := h.size
  omega

/-- A cache without links keeps no entry. -/
lemma Sound.links_of_put {n : ℕ} (h : Sound n c) (key : String) (val : Option ν) {expireAt : ℤ}
    (hpos : 0 < expireAt) : Ensures (c.put key val expireAt) fun _ => n ≠ 0 := by
  refine (h.put key val expireAt).ensures.mono fun r ⟨hr, _⟩ hn => ?_
  have hentry := hr.entry key
  rw [afterPut_self _ hpos, hr.sound.entry_of_no_links hn] at hentry
  cases hentry

end Lru

namespace Bucket

open Lru

variable {b : Bucket ν} {c₀ c₁ : Lru ν} {l : List ℕ} {i n₀ n₁ : ℕ} {nd : Slot ν} {budget : ℤ}

/-! ## The loop -/

/-- The second level loses nothing while the first one has an entry. -/
lemma evictFromBucket_first (h : First c₀ i l nd) :
    Returns (LruStore.evictFromBucket (c₀, c₁)) fun r =>
      r.2.1 = true ∧ r.1.2 = c₁ ∧ r.1.1.drift = c₀.drift ∧ r.1.1.liveBytes ≤ c₀.liveBytes ∧
      ((∃ l', First r.1.1 i l' nd) ∨ c₀.liveBytes = nd.weight ∧ r.1.1.entry nd.k = none) := by
  refine h.evictOldest.bind fun ⟨c₀', done, evicted⟩ hr => ?_
  obtain ⟨rfl, hdrift, hgrowth, hcase⟩ := hr
  exact .ok ⟨rfl, rfl, hdrift, hgrowth, hcase⟩

/-- An entry that fits beside the second level stays.

**Proof sketch.** By induction on the rounds. The entry would go when it is the only one in the
first level, and then the bucket is in its budget. -/
lemma shrink_keeps (h : First c₀ i l nd)
    (hroom : int64 (c₀.drift + nd.weight + c₁.bytes) ≤ budget) (rounds : ℕ) :
    Ensures (LruStore.shrink budget (c₀, c₁) rounds) fun r =>
      r.1.1.entry nd.k = some (nd.v, nd.expireAt) := by
  induction rounds generalizing c₀ l with
  | zero => exact .error _
  | succ rounds ih =>
    unfold LruStore.shrink
    split
    · rename_i hover
      refine (evictFromBucket_first h).ensures.bind ?_
      rintro ⟨⟨c₀', c₁'⟩, done, evicted⟩ ⟨rfl, rfl, hdrift, -, ⟨l', hfirst⟩ | ⟨hlast, -⟩⟩
      · exact (ih hfirst (by rw [hdrift]; exact hroom)).bind fun r hr => .ok hr
      · rw [int64_bytes_add, hlast] at hover
        exact absurd hroom (not_le.2 hover)
    · exact .ok h.entry_eq

/-- An entry that does not fit beside the second level goes, if no sum overflows.

**Proof sketch.** By induction on the rounds. As long as the entry is there, the bucket is over
its budget. -/
lemma shrink_evicts (hbudget : 0 < budget) (h : First c₀ i l nd) (h₁ : Sound n₁ c₁)
    (hnone : c₁.entry nd.k = none) (hroom : budget < c₀.drift + nd.weight + c₁.bytes)
    (hrange : c₀.drift + c₀.liveBytes + c₁.bytes < 2 ^ 63) (rounds : ℕ) :
    Ensures (LruStore.shrink budget (c₀, c₁) rounds) fun r =>
      r.1.1.entry nd.k = none ∧ r.1.2.entry nd.k = none := by
  induction rounds generalizing c₀ l with
  | zero => exact .error _
  | succ rounds ih =>
    have hle := h.weight_le
    have hover : budget < int64 (c₀.bytes + c₁.bytes) := by
      rw [int64_bytes_add, int64_eq (by omega) hrange]
      omega
    unfold LruStore.shrink
    rw [if_pos hover]
    refine ((evictFromBucket h.rep.sound h₁).ensures.and (evictFromBucket_first h).ensures).bind ?_
    rintro ⟨⟨c₀', c₁'⟩, done, evicted⟩ ⟨hlost, rfl, rfl, hdrift, hgrowth, hcase⟩
    rcases hlost with ⟨hfalse, -⟩ | ⟨-, hlost, -⟩
    · cases hfalse
    rcases hcase with ⟨l', hfirst⟩ | ⟨-, hgone⟩
    · refine (ih hfirst ?_ ?_).bind fun r hr => .ok hr
      · rw [hdrift]
        exact hroom
      · omega
    · -- the entry is gone, and the loop brings nothing back
      refine (shrink hbudget rounds hlost.fst.sound hlost.snd.sound).ensures.bind fun r hr =>
        .ok ⟨?_, ?_⟩
      · exact none_of_sub (hr.1.fst.sub _) hgone
      · exact none_of_sub (hr.1.snd.sub _) hnone

/-! ## A call of `Set` and a call of `Get` -/

/-- The bytes that a bucket counts when the entry that is set is the only one in its first
level. -/
def floor (b : Bucket ν) (key : String) (value : Option ν) : ℤ :=
  int64 (b.1.drift + weight key value + (b.2.drift + (b.2.liveBytes - b.2.entryWeight key)))

variable {l₀ l₁ : List ℕ} {key : String} {value : Option ν} {expireAt : ℤ}

lemma setBucketEntry_keeps (h₀ : Rep b.1 l₀) (h₁ : Rep b.2 l₁) (hpos : 0 < expireAt)
    (hroom : b.floor key value ≤ budget) :
    Ensures (LruStore.setBucketEntry budget b key value expireAt) fun r =>
      r.1.1.entry key = some (value, expireAt) := by
  refine (h₀.put key value expireAt).ensures.bind fun ⟨c₀, evicted⟩ ⟨_, ⟨i, hplaced⟩, _⟩ => ?_
  refine (h₁.drop key).ensures.bind fun c₁ ⟨_, hdrift₁, hlive₁, _, _⟩ => ?_
  have hfirst := hplaced.first hpos
  split
  · refine (shrink_keeps hfirst ?_ _).bind fun r hr => .ok hr
    rw [hplaced.drift_eq hpos, weight_of_live hpos, add_comm _ c₁.bytes, int64_bytes_add, hdrift₁,
      hlive₁, add_comm]
    exact hroom
  · exact .ok hfirst.entry_eq

lemma setBucketEntry_evicts (h₀ : Rep b.1 l₀) (h₁ : Rep b.2 l₁) (hpos : 0 < expireAt)
    (hbudget : 0 < budget) (hfits : Fits budget b) (hrange : weight key value + budget < 2 ^ 63)
    (hroom : budget < b.floor key value) :
    Ensures (LruStore.setBucketEntry budget b key value expireAt) fun r =>
      r.1.1.entry key = none ∧ r.1.2.entry key = none := by
  have hdrift₀ := hfits.accounted₀.drift_eq
  have hdrift₁ := hfits.accounted₁.drift_eq
  have htotal := hfits.budget hbudget
  have hnonneg₀ := liveBytes_nonneg b.1
  have hw₁ := entryWeight_nonneg b.2 key
  unfold Bucket.liveBytes at htotal
  refine (h₀.put key value expireAt).ensures.bind fun ⟨c₀, evicted⟩ ⟨hupdate, ⟨i, hplaced⟩, _⟩ => ?_
  refine (h₁.drop key).ensures.bind fun c₁ ⟨⟨l₁', h₁'⟩, _, hlive₁, hgone, hacc₁⟩ => ?_
  have hnonneg₁ := liveBytes_nonneg c₁
  have hbytes₁ : c₁.bytes = b.2.liveBytes - b.2.entryWeight key := by
    have hacc : c₁.bytes = int64 c₁.liveBytes := hacc₁ hfits.accounted₁
    have hw := weight_nonneg key value
    rw [hacc, int64_eq (by omega) (by omega), hlive₁]
  have hgrowth := hupdate.growth
  have hdrift : c₀.drift = 0 := (hplaced.drift_eq hpos).trans hdrift₀
  dsimp only at hgrowth hdrift ⊢
  rw [if_pos hbudget]
  refine (shrink_evicts hbudget (hplaced.first hpos) h₁'.sound hgone ?_ ?_ _).bind
    fun r hr => .ok hr
  · rw [hdrift, weight_of_live hpos, hbytes₁, zero_add]
    unfold floor at hroom
    have hw := weight_nonneg key value
    rwa [hdrift₀, hdrift₁, zero_add, zero_add, int64_eq (by omega) (by omega)] at hroom
  · dsimp only
    omega

/-- What `Get` returns: the entry of the key, if it has not expired. -/
def found (b : Bucket ν) (key : String) (now : ℤ) : Option (Option ν) :=
  ((b.1.entry key).or (b.2.entry key)).bind fun x => if x.2 ≤ now then none else some x.1

lemma getBucket_found (h₀ : Sound n₀ b.1) (h₁ : Sound n₁ b.2) (key : String) (now : ℤ) :
    Ensures (LruStore.getBucket b key now) fun r =>
      r.2.1 = b.found key now ∧ (b.1.entry key ≠ none → r.2.1 ≠ none → n₁ ≠ 0) := by
  unfold LruStore.getBucket found
  refine (h₀.del key).ensures.bind fun ⟨c₀, f⟩ ⟨hfound, _⟩ => ?_
  rw [← hfound]
  cases f with
  | some x =>
    dsimp only
    split
    · rename_i hexp
      exact Ensures.bind' fun _ => .ok ⟨(if_pos hexp).symm, fun _ hne => absurd rfl hne⟩
    · rename_i hexp
      have hpos : 0 < x.2.expireAt := entry_pos hfound.symm
      exact (h₁.links_of_put key x.2.v hpos).bind fun _ hn =>
        .ok ⟨(if_neg hexp).symm, fun _ _ => hn⟩
  | none =>
    refine (h₁.peek key).ensures.bind fun r hr => ?_
    rw [← hr.1]
    cases r with
    | none => exact .ok ⟨rfl, fun hne => absurd rfl hne⟩
    | some x =>
      dsimp only [bind_some, Slot.entry]
      split
      · split
        · rename_i hexp
          exact Ensures.bind' fun _ => .ok ⟨(if_pos hexp).symm, fun hne => absurd rfl hne⟩
        · rename_i hexp
          exact Ensures.bind' fun _ => .ok ⟨(if_neg hexp).symm, fun hne => absurd rfl hne⟩
      · exact .ok ⟨rfl, fun hne => absurd rfl hne⟩

end Bucket

/-! ## The store -/

namespace LruStore

variable {s : LruStore ν} {key : String} {value : Option ν}

/-- `Get(key)` at `now'`, immediately after `Set(key, value)` at `now`, returns the value. -/
def Survives (s : LruStore ν) (key : String) (value : Option ν) (now now' : ℤ) : Prop :=
  ∃ s' evicted s'' evicted', s.set key value now = .ok (s', evicted) ∧
    s'.get key now' = .ok (s'', some value, evicted')

/-- The entry fits beside the second level of its bucket. -/
def Room (s : LruStore ν) (key : String) (value : Option ν) : Prop :=
  ∃ b : Bucket ν, s.caches[s.idx key]? = some b ∧ b.floor key value ≤ s.maxBucketBytes

/-- The condition for a write to survive: the caches have links, the clock has not reached the
expiry of an entry that lives for ever, and there is room. -/
structure Fitting (opts : StoreOptions) (s : LruStore ν) (key : String) (value : Option ν)
    (now' : ℤ) : Prop where
  links₀ : opts.capPerBucket ≠ 65535
  links₁ : opts.level2Cap ≠ 65535
  clock : now' < maxExpireAt
  room : s.Room key value

omit [HasLen ν] in
lemma bucket_eq_ok {i : ℕ} {b : Bucket ν} : s.bucket i = .ok b ↔ s.caches[i]? = some b := by
  unfold bucket
  cases s.caches[i]? with
  | none => exact ⟨nofun, nofun⟩
  | some b' => simp

/-- `Set` and `Get` on the bucket of the key. -/
lemma survives_iff {b : Bucket ν} (hb : s.caches[s.idx key]? = some b) (now now' : ℤ) :
    s.Survives key value now now' ↔
      ∃ r r', setBucketEntry s.maxBucketBytes b key value maxExpireAt = .ok r ∧
        getBucket r.1 key now' = .ok r' ∧ r'.2.1 = some value := by
  have hbucket : s.bucket (s.idx key) = .ok b := bucket_eq_ok.2 hb
  have hlen := (List.getElem?_eq_some_iff.1 hb).1
  have hset : ∀ b', (s.setBucket (s.idx key) b').bucket
      ((s.setBucket (s.idx key) b').idx key) = .ok b' := fun b' =>
    bucket_eq_ok.2 (getElem?_set_self hlen)
  constructor
  · rintro ⟨s', evicted, s'', evicted', hs', hs''⟩
    obtain ⟨b₀, hb₀, hs'⟩ := bind_eq_ok.1 hs'
    rw [hbucket, Except.ok.injEq] at hb₀
    subst hb₀
    obtain ⟨r, hr, hs'⟩ := bind_eq_ok.1 hs'
    cases hs'
    obtain ⟨b₁, hb₁, hs''⟩ := bind_eq_ok.1 hs''
    rw [hset, Except.ok.injEq] at hb₁
    subst hb₁
    obtain ⟨⟨b'', v, evicted''⟩, hr', hs''⟩ := bind_eq_ok.1 hs''
    cases hs''
    exact ⟨r, _, hr, hr', rfl⟩
  · rintro ⟨⟨b', evicted⟩, ⟨b'', v, evicted'⟩, hr, hr', rfl⟩
    exact ⟨_, evicted, _, evicted', bind_eq_ok.2 ⟨b, hbucket, bind_eq_ok.2 ⟨_, hr, rfl⟩⟩,
      bind_eq_ok.2 ⟨b', hset b', bind_eq_ok.2 ⟨_, hr', rfl⟩⟩⟩

/-- **A write with room survives its own `Set`.** After any calls, if the new entry and the
entries of other keys in the second level of its bucket are in the budget, `Get` immediately
after `Set` returns the value. If the bytes have been counted right and no sum overflows, it is
the only case in which it does. -/
theorem set_survives (opts : StoreOptions) (ops : List (Op ν)) (s₀ s : LruStore ν)
    (hnew : newStore ν opts = .ok s₀) (hmax : 0 < opts.maxBytes)
    (hops : ∀ op ∈ ops, op.inRange) (hrun : s₀.run ops = .ok s) (key : String)
    (value : Option ν) (now now' : ℤ) :
    (Fitting opts s key value now' → s.Survives key value now now') ∧
    ((∀ op ∈ ops, op.fits s₀.maxBucketBytes) → weight key value + s.maxBucketBytes < 2 ^ 63 →
      s.Survives key value now now' → Fitting opts s key value now') := by
  obtain ⟨hserves₀, hfits₀, hne, hidx⟩ := newStore_serves opts s₀ hnew
  have hstepped := (hserves₀.run ops hops).ensures s hrun
  have hbudget : 0 < s.maxBucketBytes := by
    rw [hstepped.shape.budget]
    exact (newStore_eq_ok hnew).2 hmax
  have hlen : s.idx key < s.caches.length := by
    have hlt := hidx (hne hmax) key
    unfold idx at hlt ⊢
    rwa [hstepped.shape.mask, hstepped.shape.length]
  have hb := getElem?_eq_getElem hlen
  generalize s.caches[s.idx key] = b at hb
  have hserves := hstepped.serves _ b hb
  have hset := hserves.setBucketEntry s.maxBucketBytes key value maxExpireAt
  have hpos : 0 < maxExpireAt := by decide
  rw [survives_iff hb]
  constructor
  · rintro ⟨hlinks₀, hlinks₁, hclock, b', hb', hroom⟩
    rw [hb, some.injEq] at hb'
    subst hb'
    have hn₀ := (links_ne_zero_iff (d := 512) (by decide)).2 hlinks₀
    have hn₁ := (links_ne_zero_iff (d := 256) (by decide)).2 hlinks₁
    obtain ⟨l₀, hrep₀⟩ := hserves.sound₀.rep hn₀
    obtain ⟨l₁, hrep₁⟩ := hserves.sound₁.rep hn₁
    obtain ⟨r, hr⟩ := hset.succeeds ⟨hn₀, hn₁⟩
    have hserves' := (hset.ensures r hr).1
    have hkept := Bucket.setBucketEntry_keeps hrep₀ hrep₁ hpos hroom r hr
    obtain ⟨r', hr'⟩ := (hserves'.getBucket rfl now' 0).succeeds ⟨hn₀, hn₁⟩
    have hfound := (Bucket.getBucket_found hserves'.sound₀ hserves'.sound₁ key now' r' hr').1
    refine ⟨r, r', hr, hr', ?_⟩
    rw [hfound, Bucket.found, hkept, some_or, bind_some, if_neg (not_le.2 hclock)]
  · rintro hfits hrange ⟨r, r', hr, hr', hvalue⟩
    have hserves' := (hset.ensures r hr).1
    obtain ⟨hfound, hlinks⟩ :=
      Bucket.getBucket_found hserves'.sound₀ hserves'.sound₁ key now' r' hr'
    rw [hvalue] at hfound hlinks
    have hn₀ : links opts.capPerBucket 512 ≠ 0 :=
      (hserves.sound₀.links_of_put key value hpos).bind (fun _ hn _ _ => hn) r hr
    have hn₁ : links opts.level2Cap 256 ≠ 0 := by
      intro hn
      refine hlinks (fun hnone => ?_) (by simp) hn
      rw [Bucket.found, hnone, hserves'.sound₁.entry_of_no_links hn] at hfound
      cases hfound
    obtain ⟨l₀, hrep₀⟩ := hserves.sound₀.rep hn₀
    obtain ⟨l₁, hrep₁⟩ := hserves.sound₁.rep hn₁
    refine ⟨(links_ne_zero_iff (by decide)).1 hn₀, (links_ne_zero_iff (by decide)).1 hn₁, ?_,
      b, hb, ?_⟩
    · -- the entry that `Get` finds is the one that was set
      have hget := (hserves'.getBucket rfl now' 0).ensures r' hr'
      obtain ⟨e, he, hlt⟩ := hget.2.2.1 value hvalue
      rw [Function.update_self] at he
      cases he
      exact hlt
    · by_contra hroom
      have hgone := Bucket.setBucketEntry_evicts hrep₀ hrep₁ hpos hbudget
        (hstepped.fits hfits hfits₀ _ b hb) hrange (not_le.1 hroom) r hr
      rw [Bucket.found, hgone.1, hgone.2] at hfound
      cases hfound

/-- Two entries of two bytes that have been read, and are in the second level. -/
def twoRead : List (Op ByteView) :=
  [.set "a" (some oneByte) 5, .get "a" 5, .set "b" (some oneByte) 5, .get "b" 5]

/-- In a budget of six bytes there is room for a third entry of two bytes. -/
theorem set_survives_third :
    ∃ s₀ s, newStore ByteView (oneBucket 6) = .ok s₀ ∧ s₀.run twoRead = .ok s ∧
      s.Survives "c" (some oneByte) 5 5 := by
  obtain ⟨s₀, hnew, s, hrun, b, hb, hfloor⟩ : ∃ s₀, newStore ByteView (oneBucket 6) = .ok s₀ ∧
      ∃ s, s₀.run twoRead = .ok s ∧ ∃ b, s.caches[s.idx "c"]? = some b ∧
        Bucket.floor b "c" (some oneByte) ≤ s.maxBucketBytes := by decide +kernel
  exact ⟨s₀, s, hnew, hrun, (set_survives (oneBucket 6) twoRead s₀ s hnew (by decide)
    (by decide +kernel) hrun "c" (some oneByte) 5 5).1
    ⟨by decide, by decide, by decide, b, hb, hfloor⟩⟩

/-- **The write that evicts itself.** In a budget of four bytes the two entries of the second
level fill the bucket. A third one of two bytes is put into the first level and is then the
oldest entry there, so it is the one that is evicted, and `Get` finds nothing. -/
theorem set_evicts_itself :
    ∃ s₀ s s' evicted s'' evicted', newStore ByteView (oneBucket 4) = .ok s₀ ∧
      s₀.run twoRead = .ok s ∧ weight "c" (some oneByte) ≤ s.maxBucketBytes ∧
      s.set "c" (some oneByte) 5 = .ok (s', evicted) ∧
      s'.get "c" 5 = .ok (s'', none, evicted') := by
  obtain ⟨s₀, hnew, s, hrun, hweight, ⟨s', evicted⟩, hset, ⟨s'', _, evicted'⟩, hget, rfl⟩ :
      ∃ s₀, newStore ByteView (oneBucket 4) = .ok s₀ ∧ ∃ s, s₀.run twoRead = .ok s ∧
        weight "c" (some oneByte) ≤ s.maxBucketBytes ∧
        ∃ r, s.set "c" (some oneByte) 5 = .ok r ∧ ∃ r', r.1.get "c" 5 = .ok r' ∧ r'.2.1 = none := by
    decide +kernel
  exact ⟨s₀, s, s', evicted, s'', evicted', hnew, hrun, hweight, hset, hget⟩

end LruStore

end Yukino.Caches
