import Yukino.Cache.LruSpec
import Yukino.Lib.Ledger

set_option autoImplicit false

/-!
# The LRU store serves what was set

The two caches of a bucket hold parts of one map: what `Set` has written last, without what
was deleted. Each of the operations keeps this, and keeps the bytes of a bucket in its budget.

## Main definitions

* `LruStore.recorded` — the value that was set last for a key, and its expiry.
* `Bucket.Serves` — the entries of a bucket are among those, in one level each.
* `Bucket.Fits` — the bytes of a bucket are counted right and in the budget.
-/

namespace Yukino.Caches

open MachineInt Outcome Lru Ledger List Function Option

variable {ν : Type}

/-- The two caches of a bucket. -/
abbrev Bucket (ν : Type) := Lru ν × Lru ν

/-- A map from keys to values with their expiries. -/
abbrev Record (ν : Type) := String → Option (Option ν × ℤ)

namespace Lru

/-- The values of the entries. -/
def values (c : Lru ν) (k : String) : Option (Option ν) := (c.entry k).map Prod.fst

variable {n : ℕ} {c c' : Lru ν} {key : String} {δ : ℤ} {ok : Prop}

lemma pairsOf_values (c : Lru ν) (key : String) :
    pairsOf c.values key = (c.entry key).toList.map fun x => (key, x.1) := by
  unfold pairsOf values
  cases c.entry key <;> rfl

variable [HasLen ν]

lemma Became.flow_same (h : Became n c c' c.entry δ ok) :
    Flow (hold c.values) (hold c'.values) [] [] := by
  have hvalues : c'.values = c.values := by
    funext k
    rw [values, h.entry, values]
  rw [hvalues]
  exact Flow.refl _

lemma Became.flow_erase (h : Became n c c' (fun k => if k = key then none else c.entry k) δ ok) :
    Flow (hold c.values) (hold c'.values) [] (pairsOf c.values key) := by
  refine Flow.erase fun k => ?_
  rw [values, h.entry, apply_ite (Option.map Prod.fst)]
  rfl

/-- The entry of another key may go, then the new one comes in the place of the old one. -/
lemma Became.flow_put {val : Option ν} {expireAt : ℤ} {evicted : List (Evicted ν)}
    (h : Became n c c' (c.afterPut key val expireAt evicted) δ ok) (hd : Displaced c key evicted)
    (hpos : 0 < expireAt) :
    Flow (hold c.values) (hold c'.values) [(key, val)] (evicted ++ pairsOf c.values key) := by
  have hentry : ∀ k, c'.values k = if k = key then some val
      else if k ∈ evicted.map Prod.fst then none else c.values k := by
    intro k
    rw [values, h.entry, afterPut, written, if_pos hpos, apply_ite (Option.map Prod.fst),
      apply_ite (Option.map Prod.fst)]
    rfl
  rcases hd with rfl | ⟨k', x, rfl, hne, hx⟩
  · exact Flow.insert fun k => by simpa using hentry k
  · have hgone : Flow (hold c.values) (hold fun k => if k = k' then none else c.values k) []
        (pairsOf c.values k') := Flow.erase fun k => rfl
    rw [pairsOf_values, hx] at hgone
    have hput : Flow (hold fun k => if k = k' then none else c.values k) (hold c'.values)
        [(key, val)] (pairsOf (fun k => if k = k' then none else c.values k) key) :=
      Flow.insert fun k => by simpa using hentry k
    have hkey : pairsOf (fun k => if k = k' then none else c.values k) key =
        pairsOf c.values key := by
      simp [pairsOf, Ne.symm hne]
    rw [hkey] at hput
    exact hgone.trans hput

/-- A cache has lost entries, and nothing else has happened to them. -/
structure Lost (n : ℕ) (c c' : Lru ν) : Prop where
  sound : Sound n c'
  sub : ∀ k x, c'.entry k = some x → c.entry k = some x
  growth : c'.liveBytes ≤ c.liveBytes
  accounted : Accounted c → Accounted c'

lemma Lost.refl (h : Sound n c) : Lost n c c := ⟨h, fun _ _ hx => hx, le_rfl, id⟩

lemma Lost.trans {c'' : Lru ν} (h : Lost n c c') (h' : Lost n c' c'') : Lost n c c'' :=
  ⟨h'.sound, fun k x hx => h.sub k x (h'.sub k x hx), h'.growth.trans h.growth,
    fun hacc => h'.accounted (h.accounted hacc)⟩

lemma Became.lost {f : Record ν} (h : Became n c c' f δ True)
    (hf : ∀ k x, f k = some x → c.entry k = some x) (hδ : δ ≤ 0) : Lost n c c' where
  sound := h.sound
  sub k x hx := hf k x (by rw [← h.entry, hx])
  growth := by
    have hgrowth := h.growth
    omega
  accounted := h.accounted trivial

omit [HasLen ν] in
lemma of_erased {k : String} {x : Option ν × ℤ}
    (h : (if k = key then none else c.entry k) = some x) : c.entry k = some x ∧ k ≠ key := by
  split at h
  · cases h
  · exact ⟨h, ‹_›⟩

lemma Became.lost_erase (h : Became n c c' (fun k => if k = key then none else c.entry k) δ True)
    (hδ : δ ≤ 0) : Lost n c c' :=
  h.lost (fun _ _ hx => (of_erased hx).1) hδ

lemma entryWeight_nonneg (c : Lru ν) (key : String) : 0 ≤ c.entryWeight key := by
  unfold entryWeight
  split
  · exact le_rfl
  · exact weight_nonneg _ _

/-- The entry of a key is removed. -/
lemma Became.lost_del (h : Became n c c' (fun k => if k = key then none else c.entry k)
    (-c.entryWeight key) True) : Lost n c c' :=
  h.lost_erase (neg_nonpos.2 (entryWeight_nonneg c key))

end Lru

namespace Bucket

/-- The values of a key in the slots that are alive. -/
def live (b : Bucket ν) : String → Multiset (Option ν) := hold b.1.values + hold b.2.values

/-- The pairs of a key in the two levels. -/
def pairs (b : Bucket ν) (key : String) : List (Evicted ν) :=
  pairsOf b.1.values key ++ pairsOf b.2.values key

/-- The entries of the keys `P` are those of a record, and no key has one in both levels. The
caches have `n₀` and `n₁` links. -/
structure Serves (n₀ n₁ : ℕ) (P : String → Prop) (spec : Record ν) (b : Bucket ν) : Prop where
  sound₀ : Sound n₀ b.1
  sound₁ : Sound n₁ b.2
  agree₀ : ∀ k x, P k → b.1.entry k = some x → spec k = some x
  agree₁ : ∀ k x, P k → b.2.entry k = some x → spec k = some x
  one : ∀ k, P k → b.1.entry k = none ∨ b.2.entry k = none

section

variable {n₀ n₁ : ℕ} {P : String → Prop} {spec spec' : Record ν} {b b' : Bucket ν}

lemma entry_pos {c : Lru ν} {k : String} {x : Option ν × ℤ} (h : c.entry k = some x) : 0 < x.2 := by
  unfold Lru.entry at h
  rw [bind_eq_some_iff] at h
  obtain ⟨i, -, h⟩ := h
  rw [bind_eq_some_iff] at h
  obtain ⟨nd, -, h⟩ := h
  unfold Slot.entry at h
  split at h
  · cases h
    assumption
  · cases h

/-- A key without an entry has none in a part of the entries. -/
lemma none_of_sub {o o' : Option (Option ν × ℤ)} (h : ∀ x, o' = some x → o = some x)
    (hnone : o = none) : o' = none := by
  cases ho : o' with
  | none => rfl
  | some x =>
    rw [h x ho] at hnone
    cases hnone

variable [HasLen ν]

/-- The bytes of the entries of a bucket. -/
def liveBytes (b : Bucket ν) : ℤ := b.1.liveBytes + b.2.liveBytes

/-- The bytes are counted right, and if there is a budget, they are in it. -/
structure Fits (budget : ℤ) (b : Bucket ν) : Prop where
  accounted₀ : Accounted b.1
  accounted₁ : Accounted b.2
  budget : 0 < budget → b.liveBytes ≤ budget

variable {f₀ f₁ : Record ν} {δ₀ δ₁ budget : ℤ} {ok : Prop}

lemma Fits.of_became (h : Fits budget b) (h₀ : Became n₀ b.1 b'.1 f₀ δ₀ True)
    (h₁ : Became n₁ b.2 b'.2 f₁ δ₁ ok) (hok : ok) (hδ : δ₀ + δ₁ ≤ 0) : Fits budget b' := by
  refine ⟨h₀.accounted trivial h.accounted₀, h₁.accounted hok h.accounted₁, fun hb => ?_⟩
  have hg₀ := h₀.growth
  have hg₁ := h₁.growth
  have hold := h.budget hb
  unfold liveBytes at hold ⊢
  omega

/-- The two caches of a bucket have lost entries. -/
structure Lost (n₀ n₁ : ℕ) (b b' : Bucket ν) : Prop where
  fst : Lru.Lost n₀ b.1 b'.1
  snd : Lru.Lost n₁ b.2 b'.2

lemma Lost.trans {b'' : Bucket ν} (h : Lost n₀ n₁ b b') (h' : Lost n₀ n₁ b' b'') :
    Lost n₀ n₁ b b'' :=
  ⟨h.fst.trans h'.fst, h.snd.trans h'.snd⟩

lemma Lost.growth (h : Lost n₀ n₁ b b') : b'.liveBytes ≤ b.liveBytes :=
  add_le_add h.fst.growth h.snd.growth

lemma Fits.lose (h : Fits budget b) (hl : Lost n₀ n₁ b b') : Fits budget b' :=
  ⟨hl.fst.accounted h.accounted₀, hl.snd.accounted h.accounted₁,
    fun hb => hl.growth.trans (h.budget hb)⟩

/-- A bucket that only loses entries serves the same record, and also one without the keys
that it has lost. -/
lemma Serves.lose (h : Serves n₀ n₁ P spec b) (hl : Lost n₀ n₁ b b')
    (hspec : ∀ k x, b'.1.entry k = some x ∨ b'.2.entry k = some x → spec' k = spec k) :
    Serves n₀ n₁ P spec' b' where
  sound₀ := hl.fst.sound
  sound₁ := hl.snd.sound
  agree₀ k x hk hx := by
    rw [hspec k x (.inl hx)]
    exact h.agree₀ k x hk (hl.fst.sub k x hx)
  agree₁ k x hk hx := by
    rw [hspec k x (.inr hx)]
    exact h.agree₁ k x hk (hl.snd.sub k x hx)
  one k hk := (h.one k hk).imp (none_of_sub (hl.fst.sub k)) (none_of_sub (hl.snd.sub k))

/-- An entry moves from the first level to the second one, which may lose others for it. -/
lemma Serves.move (h : Serves n₀ n₁ P spec b) {key : String} {x : Option ν × ℤ}
    (hx : b.1.entry key = some x)
    (h₀ : Became n₀ b.1 b'.1 (fun k => if k = key then none else b.1.entry k) δ₀ True)
    (h₁ : Became n₁ b.2 b'.2 f₁ δ₁ ok) (hkey : f₁ key = some x)
    (hf₁ : ∀ k y, k ≠ key → f₁ k = some y → b.2.entry k = some y) :
    Serves n₀ n₁ P spec b' where
  sound₀ := h₀.sound
  sound₁ := h₁.sound
  agree₀ k y hk hy := by
    rw [h₀.entry] at hy
    exact h.agree₀ k y hk (of_erased hy).1
  agree₁ k y hk hy := by
    rw [h₁.entry] at hy
    rcases eq_or_ne k key with rfl | hne
    · rw [← hy, hkey]
      exact h.agree₀ k x hk hx
    · exact h.agree₁ k y hk (hf₁ k y hne hy)
  one k hk := by
    rw [h₀.entry, h₁.entry]
    rcases eq_or_ne k key with rfl | hne
    · exact .inl (if_pos rfl)
    · rw [if_neg hne]
      exact (h.one k hk).imp_right (none_of_sub fun y => hf₁ k y hne)

/-- What `Get` returns is the entry of the key in one of the levels, before its expiry; and a
bucket that has served `Get` serves the same record. -/
lemma Serves.getBucket (h : Serves n₀ n₁ P spec b) {key : String} (hkey : P key)
    (now budget : ℤ) :
    Guarded (n₀ ≠ 0 ∧ n₁ ≠ 0) (LruStore.getBucket b key now) fun r =>
      Serves n₀ n₁ P spec r.1 ∧ (Fits budget b → Fits budget r.1) ∧
      (∀ v, r.2.1 = some v → ∃ e, spec key = some (v, e) ∧ now < e) ∧
      Flow b.live (live r.1) [] r.2.2 := by
  have hlose : ∀ {b' : Bucket ν} {v : Option (Option ν)} {evicted : List (Evicted ν)},
      Lost n₀ n₁ b b' → Flow b.live b'.live [] evicted →
      (∀ v', v = some v' → ∃ e, spec key = some (v', e) ∧ now < e) →
      Guarded (n₀ ≠ 0 ∧ n₁ ≠ 0) (.ok (b', v, evicted) : Except Fault _) fun r =>
        Serves n₀ n₁ P spec r.1 ∧ (Fits budget b → Fits budget r.1) ∧
        (∀ v', r.2.1 = some v' → ∃ e, spec key = some (v', e) ∧ now < e) ∧
        Flow b.live (live r.1) [] r.2.2 :=
    fun hl hflow hv =>
      Guarded.ok ⟨h.lose hl fun _ _ _ => rfl, fun hfits => hfits.lose hl, hv, hflow⟩
  refine ((h.sound₀.del key).of_imp And.left).bind fun ⟨c₀, found⟩ ⟨hfound, hc₀⟩ => ?_
  have hflow₀ := hc₀.flow_erase
  have hpairs := pairsOf_values b.2 key
  rw [pairsOf_values, ← hfound] at hflow₀
  cases found with
  | some f =>
    obtain ⟨idx, nd⟩ := f
    have hentry : b.1.entry key = some (nd.v, nd.expireAt) := hfound.symm
    have hnone : b.2.entry key = none := (h.one key hkey).resolve_left (by simp [hentry])
    rw [hnone, toList_none, map_nil] at hpairs
    dsimp only
    split
    · -- expired in the first level
      refine ((h.sound₁.drop key).of_imp And.right).bind fun c₁ hc₁ => ?_
      have hflow := hflow₀.add hc₁.flow_erase
      rw [hpairs] at hflow
      exact hlose ⟨hc₀.lost_del, hc₁.lost_del⟩ hflow fun v hv => by cases hv
    · rename_i hfresh
      have hpos : 0 < nd.expireAt := entry_pos hentry
      refine ((h.sound₁.put key nd.v nd.expireAt).of_imp And.right).bind
        fun ⟨c₁, evicted⟩ ⟨hc₁, hd⟩ => ?_
      have hflow := hflow₀.add (hc₁.flow_put hd hpos)
      rw [hpairs, append_nil] at hflow
      refine Guarded.ok ⟨h.move hentry hc₀ hc₁ (afterPut_self _ hpos _) fun k y => of_afterPut,
        fun hfits => hfits.of_became hc₀ hc₁ hpos ?_, fun v hv => ?_,
        -- what leaves the first level comes into the second one
        Flow.cancel [(key, nd.v)] hflow⟩
      · have hweight : b.1.entryWeight key = weight key nd.v := by
          rw [entryWeight, hentry]
        omega
      · cases hv
        exact ⟨nd.expireAt, h.agree₀ key _ hkey hentry, not_le.1 hfresh⟩
  | none =>
    -- nothing in the first level
    have hsame : Lru.Lost n₁ b.2 b.2 := .refl h.sound₁
    refine ((h.sound₁.peek key).of_imp And.right).bind fun r hr => ?_
    cases r with
    | none => exact hlose ⟨hc₀.lost_del, hsame⟩ (hflow₀.add (Flow.refl _)) fun v hv => by cases hv
    | some f =>
      obtain ⟨nd, idx⟩ := f
      obtain ⟨hentry, hlookup⟩ := hr
      replace hentry : nd.entry = b.2.entry key := hentry
      dsimp only
      split
      · rename_i hlive
        rw [Slot.entry, if_pos hlive] at hentry
        rw [← hentry] at hpairs
        split
        · -- expired in the second level
          refine ((h.sound₁.drop key).of_imp And.right).bind fun c₁ hc₁ => ?_
          have hflow := hflow₀.add hc₁.flow_erase
          rw [hpairs] at hflow
          exact hlose ⟨hc₀.lost_del, hc₁.lost_del⟩ hflow fun v hv => by cases hv
        · rename_i hfresh
          refine ((h.sound₁.touch (hlookup nd idx rfl)).of_imp And.right).bind fun c₁ hc₁ => ?_
          have hkept := hc₁.lost (fun _ _ hx => hx) le_rfl
          refine hlose ⟨hc₀.lost_del, hkept⟩ (hflow₀.add hc₁.flow_same) fun v hv => ?_
          cases hv
          exact ⟨nd.expireAt, h.agree₁ key _ hkey hentry.symm, not_le.1 hfresh⟩
      · exact hlose ⟨hc₀.lost_del, hsame⟩ (hflow₀.add (Flow.refl _)) fun v hv => by cases hv

/-! ## The budget -/

lemma evictFromBucket (h₀ : Sound n₀ b.1) (h₁ : Sound n₁ b.2) :
    Guarded (n₀ ≠ 0 ∧ n₁ ≠ 0) (LruStore.evictFromBucket b) fun r =>
      (r = (b, false, []) ∧ b.liveBytes = 0) ∨
      (r.2.1 = true ∧ Lost n₀ n₁ b r.1 ∧
        r.1.1.liveCount + r.1.2.liveCount + 1 = b.1.liveCount + b.2.liveCount ∧
        Flow b.live (live r.1) [] r.2.2) := by
  refine (h₀.evictOldest.of_imp And.left).bind fun r hr => ?_
  rcases hr with ⟨rfl, hbarren₀⟩ | ⟨k, x, hx, hr, hc₀, hcount⟩
  · refine (h₁.evictOldest.of_imp And.right).bind fun r hr => ?_
    rcases hr with ⟨rfl, hbarren₁⟩ | ⟨k, x, hx, hr, hc₁, hcount⟩
    · refine Guarded.ok (.inl ⟨rfl, ?_⟩)
      unfold liveBytes
      rw [hbarren₀.1, hbarren₁.1, add_zero]
    · obtain ⟨c₁, done, evicted⟩ := r
      cases hr
      have hflow := hc₁.flow_erase
      rw [pairsOf_values, hx] at hflow
      refine Guarded.ok (.inr ⟨rfl, ⟨.refl h₀, hc₁.lost_erase le_rfl⟩, ?_,
        (Flow.refl _).add hflow⟩)
      dsimp only at hcount ⊢
      omega
  · obtain ⟨c₀, done, evicted⟩ := r
    cases hr
    have hflow := hc₀.flow_erase
    rw [pairsOf_values, hx] at hflow
    refine Guarded.ok (.inr ⟨rfl, ⟨hc₀.lost_erase le_rfl, .refl h₁⟩, ?_,
      hflow.add (Flow.refl _)⟩)
    dsimp only at hcount ⊢
    omega

/-- The sum of the two fields is the number of bytes, if it is in the range. -/
lemma int64_bytes (h₀ : Accounted b.1) (h₁ : Accounted b.2) (hlt : b.liveBytes < 2 ^ 63) :
    int64 (b.1.bytes + b.2.bytes) = b.liveBytes := by
  have hnonneg₀ := liveBytes_nonneg b.1
  have hnonneg₁ := liveBytes_nonneg b.2
  rw [h₀, h₁, int64_add_left, int64_add_right]
  exact int64_eq (by omega) hlt

/-- The loop that brings a bucket into its budget: it only evicts, and at the end the bucket is
in the budget.

**Proof sketch.** By induction on the rounds. A round without an entry to evict finds no bytes,
and then it is not over the budget; any other round leaves one entry less. -/
lemma shrink (hbudget : 0 < budget) (rounds : ℕ) (h₀ : Sound n₀ b.1) (h₁ : Sound n₁ b.2) :
    Guarded ((n₀ ≠ 0 ∧ n₁ ≠ 0) ∧ b.1.liveCount + b.2.liveCount < rounds)
      (LruStore.shrink budget b rounds) fun r =>
      Lost n₀ n₁ b r.1 ∧ (Accounted b.1 → Accounted b.2 → b.liveBytes < 2 ^ 63 →
        Bucket.liveBytes r.1 ≤ budget) ∧ Flow b.live (live r.1) [] r.2 := by
  induction rounds generalizing b with
  | zero => exact Guarded.error _ fun hg => Nat.not_lt_zero _ hg.2
  | succ rounds ih =>
    unfold LruStore.shrink
    split
    · refine ((evictFromBucket h₀ h₁).of_imp And.left).bind fun r hr => ?_
      obtain ⟨b', done, evicted⟩ := r
      rcases hr with ⟨hr, hzero⟩ | ⟨hdone, hlost, hcount, hflow⟩
      · cases hr
        refine Guarded.ok ⟨⟨.refl h₀, .refl h₁⟩, fun _ _ _ => ?_, Flow.refl _⟩
        rw [hzero]
        exact hbudget.le
      · subst hdone
        refine ((ih hlost.fst.sound hlost.snd.sound).of_imp fun hg => ⟨hg.1, by omega⟩).bind
          fun r hr => Guarded.ok ⟨hlost.trans hr.1, fun hacc₀ hacc₁ hlt => ?_, hflow.trans hr.2.2⟩
        exact hr.2.1 (hlost.fst.accounted hacc₀) (hlost.snd.accounted hacc₁)
          (lt_of_le_of_lt hlost.growth hlt)
    · rename_i hunder
      refine Guarded.ok ⟨⟨.refl h₀, .refl h₁⟩, fun hacc₀ hacc₁ hlt => ?_, Flow.refl _⟩
      rw [int64_bytes hacc₀ hacc₁ hlt] at hunder
      exact not_lt.1 hunder

/-- **`SetWithExpiration`** makes the bucket serve the new value of the key, and the bucket is
in its budget afterwards if nothing overflows. The pairs of the key go, and what is evicted. -/
lemma Serves.setBucketEntry (h : Serves n₀ n₁ P spec b) (budget : ℤ) (key : String)
    (value : Option ν) (expireAt : ℤ) :
    Guarded (n₀ ≠ 0 ∧ n₁ ≠ 0) (LruStore.setBucketEntry budget b key value expireAt) fun r =>
      Serves n₀ n₁ P (update spec key (some (value, expireAt))) r.1 ∧
      (0 < expireAt → (0 < budget → weight key value + budget < 2 ^ 63) → Fits budget b →
        Fits budget r.1) ∧
      (0 < expireAt → Flow b.live (live r.1) [(key, value)] (b.pairs key ++ r.2)) := by
  refine ((h.sound₀.put key value expireAt).of_imp And.left).bind ?_
  rintro ⟨c₀, evicted⟩ ⟨hc₀, hd⟩
  refine ((h.sound₁.drop key).of_imp And.right).bind fun c₁ hc₁ => ?_
  dsimp only at hc₀ hd hc₁ ⊢
  have hflow : 0 < expireAt →
      Flow b.live (live (c₀, c₁)) [(key, value)] (b.pairs key ++ evicted) := by
    intro hpos
    refine ((hc₀.flow_put hd hpos).add hc₁.flow_erase).perm ?_
    rw [append_assoc]
    exact perm_append_comm
  have hspec : ∀ k ≠ key, update spec key (some (value, expireAt)) k = spec k :=
    fun k hk => update_of_ne hk _ _
  have hsub₀ : ∀ k x, k ≠ key → c₀.entry k = some x → b.1.entry k = some x := by
    intro k x hk hx
    rw [hc₀.entry] at hx
    exact of_afterPut hk hx
  have hsub₁ : ∀ k x, c₁.entry k = some x → b.2.entry k = some x ∧ k ≠ key := by
    intro k x hx
    rw [hc₁.entry] at hx
    exact of_erased hx
  have hserves : Serves n₀ n₁ P (update spec key (some (value, expireAt))) (c₀, c₁) := by
    refine ⟨hc₀.sound, hc₁.sound, fun k x hk hx => ?_, fun k x hk hx => ?_, fun k hk => ?_⟩
    · rcases eq_or_ne k key with rfl | hne
      · rw [update_self]
        rw [hc₀.entry, afterPut, if_pos rfl, written] at hx
        split at hx
        · exact hx
        · cases hx
      · rw [hspec k hne]
        exact h.agree₀ k x hk (hsub₀ k x hne hx)
    · rw [hspec k (hsub₁ k x hx).2]
      exact h.agree₁ k x hk (hsub₁ k x hx).1
    · rcases eq_or_ne k key with rfl | hne
      · right
        rw [hc₁.entry, if_pos rfl]
      · exact (h.one k hk).imp (none_of_sub fun x => hsub₀ k x hne)
          (none_of_sub fun x hx => (hsub₁ k x hx).1)
  have hgrowth : Bucket.liveBytes (c₀, c₁) ≤ b.liveBytes + weight key value := by
    have hg₀ := hc₀.growth
    have hg₁ := hc₁.lost_del.growth
    unfold Bucket.liveBytes
    dsimp only
    omega
  split
  · rename_i hbudget
    have hcount : c₀.liveCount + c₁.liveCount < c₀.m.length + c₁.m.length + 1 := by
      have h0 : c₀.liveCount ≤ c₀.m.length := countP_le_length
      have h1 : c₁.liveCount ≤ c₁.m.length := countP_le_length
      omega
    refine ((shrink hbudget _ hc₀.sound hc₁.sound).of_imp fun hg => ⟨hg, hcount⟩).bind
      fun r hr => Guarded.ok ⟨hserves.lose hr.1 fun _ _ _ => rfl, ?_, fun hpos =>
        ((hflow hpos).trans hr.2.2).perm (.of_eq (append_assoc _ _ _))⟩
    intro hpos hrange hfits
    have hacc₀ := hc₀.accounted hpos hfits.accounted₀
    have hacc₁ := hc₁.accounted trivial hfits.accounted₁
    refine ⟨hr.1.fst.accounted hacc₀, hr.1.snd.accounted hacc₁, fun _ => hr.2.1 hacc₀ hacc₁ ?_⟩
    have := hfits.budget hbudget
    omega
  · rename_i hbudget
    refine Guarded.ok ⟨hserves, fun hpos _ hfits => ?_, hflow⟩
    exact ⟨hc₀.accounted hpos hfits.accounted₀, hc₁.accounted trivial hfits.accounted₁,
      fun hb => absurd hb hbudget⟩

/-! ## Deleting -/

/-- A bucket has lost the entries of the keys `K`, in both levels. -/
structure Deleted (n₀ n₁ : ℕ) (b b' : Bucket ν) (K : List String) : Prop extends
    Lost n₀ n₁ b b' where
  gone : ∀ k ∈ K, b'.1.entry k = none ∧ b'.2.entry k = none

section

variable (h₀ : Sound n₀ b.1) (h₁ : Sound n₁ b.2)
include h₀ h₁

lemma deleteEntry (key : String) :
    Guarded (n₀ ≠ 0 ∧ n₁ ≠ 0) (LruStore.deleteEntry b key) fun r =>
      Deleted n₀ n₁ b r.1 [key] := by
  refine ((h₀.del key).of_imp And.left).bind fun ⟨c₀, found₀⟩ hc₀ => ?_
  refine ((h₁.del key).of_imp And.right).bind fun ⟨c₁, found₁⟩ hc₁ => ?_
  refine Guarded.ok ⟨⟨hc₀.2.lost_del, hc₁.2.lost_del⟩, fun k hk => ?_⟩
  rw [mem_singleton.1 hk]
  exact ⟨(hc₀.2.entry key).trans (if_pos rfl), (hc₁.2.entry key).trans (if_pos rfl)⟩

lemma deleteKeys (K : List String) :
    Guarded (n₀ ≠ 0 ∧ n₁ ≠ 0) (LruStore.deleteKeys b K) fun r => Deleted n₀ n₁ b r.1 K := by
  induction K generalizing b with
  | nil => exact Guarded.ok ⟨⟨.refl h₀, .refl h₁⟩, by simp⟩
  | cons key K ih =>
    refine (deleteEntry h₀ h₁ key).bind fun ⟨b', deleted, evicted⟩ hb' => ?_
    refine (ih hb'.fst.sound hb'.snd.sound).bind fun ⟨b'', evicted'⟩ hb'' => ?_
    refine Guarded.ok ⟨hb'.toLost.trans hb''.toLost, fun k hk => ?_⟩
    rcases mem_cons.1 hk with rfl | hk
    · exact (hb'.gone k (by simp)).imp (none_of_sub (hb''.fst.sub k)) (none_of_sub (hb''.snd.sub k))
    · exact hb''.gone k hk

/-- A pass over a bucket: it loses entries, and all of them if the pass is for all. -/
lemma sweepBucket (order : MapOrder) (p : Slot ν → Bool) :
    Guarded (n₀ ≠ 0 ∧ n₁ ≠ 0) (LruStore.sweepBucket order p b) fun r =>
      Lost n₀ n₁ b r.1 ∧
      ((∀ nd, p nd = true) → ∀ k, r.1.1.entry k = none ∧ r.1.2.entry k = none) := by
  refine (h₀.walk.of_imp And.left).bind fun slots₀ hslots₀ => ?_
  refine (h₁.walk.of_imp And.right).bind fun slots₁ hslots₁ => ?_
  refine (deleteKeys h₀ h₁ _).mono fun r hr => ⟨hr.toLost, fun hp k => ?_⟩
  have hmem : ∀ nd ∈ slots₀ ++ slots₁, nd.k ∈
      order.order (((slots₀ ++ slots₁).filter p).map Slot.k).dedup := by
    intro nd hnd
    rw [(order.perm _).mem_iff, mem_dedup]
    exact mem_map_of_mem (mem_filter.2 ⟨hnd, hp nd⟩)
  constructor
  · by_contra hne
    obtain ⟨x, hx⟩ := ne_none_iff_exists'.1 hne
    obtain ⟨nd, hnd, rfl, -⟩ := hslots₀.2 k x (hr.fst.sub k x hx)
    exact hne (hr.gone _ (hmem nd (mem_append_left _ hnd))).1
  · by_contra hne
    obtain ⟨x, hx⟩ := ne_none_iff_exists'.1 hne
    obtain ⟨nd, hnd, rfl, -⟩ := hslots₁.2 k x (hr.snd.sub k x hx)
    exact hne (hr.gone _ (hmem nd (mem_append_right _ hnd))).2

end

omit [HasLen ν] in
/-- The same bucket serves a record that has the same entries that can be alive. -/
lemma Serves.congr (h : Serves n₀ n₁ P spec b)
    (hspec : ∀ k x, P k → 0 < x.2 → spec k = some x → spec' k = some x) :
    Serves n₀ n₁ P spec' b :=
  ⟨h.sound₀, h.sound₁, fun k x hk hx => hspec k x hk (entry_pos hx) (h.agree₀ k x hk hx),
    fun k x hk hx => hspec k x hk (entry_pos hx) (h.agree₁ k x hk hx), h.one⟩

end

end Bucket

namespace LruStore

/-! ## The store -/

/-- The instant at which an entry expires, without a bound on the sum. -/
def deadline (expiration now : ℤ) : ℤ := if 0 < expiration then now + expiration else maxExpireAt

/-- A sum that is positive as an `int64` has not overflowed. -/
lemma expiry_eq_deadline {expiration now : ℤ} (hexp : expiration < 2 ^ 63)
    (hnow : -2 ^ 63 ≤ now ∧ now < 2 ^ 63) (hpos : 0 < expiry expiration now) :
    expiry expiration now = deadline expiration now := by
  unfold expiry deadline at *
  split
  · unfold int64 wrap at *
    rw [Int.bmod_def] at *
    omega
  · rfl

/-- What the calls have recorded: the value that was set last, unless the key was deleted or
the store was cleared after that. -/
def Op.record (spec : Record ν) : Op ν → Record ν
  | .set key value now => update spec key (some (value, deadline 0 now))
  | .setWithExpiration key value expiration now =>
    update spec key (some (value, deadline expiration now))
  | .get _ _ => spec
  | .delete key => update spec key none
  | .clear _ => fun _ => none
  | .cleanup _ _ => spec

def recorded (ops : List (Op ν)) : Record ν := ops.foldl Op.record fun _ => none

/-- The reading of the clock and the expiration are `int64`. -/
def Op.inRange : Op ν → Prop
  | .setWithExpiration _ _ expiration now =>
    expiration < 2 ^ 63 ∧ -2 ^ 63 ≤ now ∧ now < 2 ^ 63
  | .set _ _ now => -2 ^ 63 ≤ now ∧ now < 2 ^ 63
  | _ => True

instance Op.decidableInRange (op : Op ν) : Decidable op.inRange := by
  cases op <;> unfold inRange <;> infer_instance

section

variable {n₀ n₁ : ℕ} {spec : Record ν} {s : LruStore ν}

/-- Every bucket serves the record of its keys. -/
def Serves (n₀ n₁ : ℕ) (spec : Record ν) (s : LruStore ν) : Prop :=
  ∀ (i : ℕ) (b : Bucket ν), s.caches[i]? = some b →
    Bucket.Serves n₀ n₁ (fun k => s.idx k = i) spec b

/-- What no call changes. -/
structure SameShape (s s' : LruStore ν) : Prop where
  mask : s'.mask = s.mask
  budget : s'.maxBucketBytes = s.maxBucketBytes
  length : s'.caches.length = s.caches.length

/-- The caches have links, and every key has a bucket. -/
def Proper (n₀ n₁ : ℕ) (s : LruStore ν) : Prop :=
  (n₀ ≠ 0 ∧ n₁ ≠ 0) ∧ ∀ key, s.idx key < s.caches.length

lemma Proper.of_sameShape {s' : LruStore ν} (h : Proper n₀ n₁ s) (hs : SameShape s s') :
    Proper n₀ n₁ s' := by
  refine ⟨h.1, fun key => ?_⟩
  have := h.2 key
  unfold idx at *
  rw [hs.mask, hs.length]
  exact this

lemma sameShape_setBucket (s : LruStore ν) (i : ℕ) (b : Bucket ν) : SameShape s (s.setBucket i b) :=
  ⟨rfl, rfl, by simp [setBucket]⟩

/-- The bucket of a key changes: the others serve any record that differs only there. -/
lemma Serves.setBucket (h : Serves n₀ n₁ spec s) {key : String} {b : Bucket ν} {spec' : Record ν}
    (hspec : ∀ k ≠ key, spec' k = spec k)
    (hb : Bucket.Serves n₀ n₁ (fun k => s.idx k = s.idx key) spec' b) :
    Serves n₀ n₁ spec' (s.setBucket (s.idx key) b) := by
  intro i b' hget
  change (s.caches.set (s.idx key) b)[i]? = some b' at hget
  rw [getElem?_set] at hget
  split at hget
  · rename_i hi
    subst hi
    split at hget
    · cases hget
      exact hb
    · cases hget
  · rename_i hi
    refine (h i b' hget).congr fun k x hk _ hx => ?_
    rw [hspec k ?_]
    · exact hx
    · rintro rfl
      exact hi hk

variable [HasLen ν]

/-- Every bucket is in the budget. -/
def Fits (s : LruStore ν) : Prop :=
  ∀ (i : ℕ) (b : Bucket ν), s.caches[i]? = some b → Bucket.Fits s.maxBucketBytes b

lemma Fits.setBucket (h : Fits s) {i : ℕ} {b : Bucket ν} (hb : Bucket.Fits s.maxBucketBytes b) :
    Fits (s.setBucket i b) := by
  intro j b' hget
  change (s.caches.set i b)[j]? = some b' at hget
  rw [getElem?_set] at hget
  split at hget
  · split at hget
    · cases hget
      exact hb
    · cases hget
  · exact h j b' hget

/-- A `SetWithExpiration` whose expiry does not overflow, nor the bytes with its entry. -/
def Op.fits (budget : ℤ) : Op ν → Prop
  | .set key value _ => 0 < budget → weight key value + budget < 2 ^ 63
  | .setWithExpiration key value expiration now =>
    0 < expiry expiration now ∧ (0 < budget → weight key value + budget < 2 ^ 63)
  | _ => True

instance Op.decidableFits (budget : ℤ) (op : Op ν) : Decidable (op.fits budget) := by
  cases op <;> unfold fits <;> infer_instance

/-- What a call leaves: every bucket serves the new record, and stays in the budget if the call
does not overflow. -/
structure Stepped (n₀ n₁ : ℕ) (s s' : LruStore ν) (spec' : Record ν) (fits : Prop) : Prop where
  serves : Serves n₀ n₁ spec' s'
  shape : SameShape s s'
  fits : fits → Fits s → Fits s'

section

variable (h : Serves n₀ n₁ spec s) (key : String)
include h key

omit [HasLen ν] in
lemma bucket_spec :
    Guarded (Proper n₀ n₁ s) (s.bucket (s.idx key)) fun b =>
      s.caches[s.idx key]? = some b ∧
        Bucket.Serves n₀ n₁ (fun k => s.idx k = s.idx key) spec b := by
  unfold bucket
  cases hget : s.caches[s.idx key]? with
  | none =>
    refine Guarded.error _ fun hg => ?_
    rw [getElem?_eq_none_iff] at hget
    exact absurd (hg.2 key) (not_lt.2 hget)
  | some b => exact Guarded.ok ⟨rfl, h _ b hget⟩

lemma Serves.get (now : ℤ) :
    Guarded (Proper n₀ n₁ s) (s.get key now) fun r =>
      Stepped n₀ n₁ s r.1 spec True ∧
      ∀ v, r.2.1 = some v → ∃ e, spec key = some (v, e) ∧ now < e := by
  refine (bucket_spec h key).bind fun b ⟨hget, hb⟩ => ?_
  refine ((hb.getBucket rfl now s.maxBucketBytes).of_imp And.left).bind
    fun ⟨b', value, evicted⟩ hr => ?_
  refine Guarded.ok ⟨⟨h.setBucket (fun _ _ => rfl) hr.1, sameShape_setBucket _ _ _, ?_⟩, hr.2.2.1⟩
  exact fun _ hfits => hfits.setBucket (hr.2.1 (hfits _ b hget))

lemma Serves.setWithExpiration (value : Option ν)
    (expiration now : ℤ) :
    Guarded (Proper n₀ n₁ s) (s.setWithExpiration key value expiration now) fun r =>
      Stepped n₀ n₁ s r.1 (update spec key (some (value, expiry expiration now)))
        (0 < expiry expiration now ∧
          (0 < s.maxBucketBytes → weight key value + s.maxBucketBytes < 2 ^ 63)) := by
  refine (bucket_spec h key).bind fun b ⟨hget, hb⟩ => ?_
  refine ((hb.setBucketEntry _ key value (expiry expiration now)).of_imp And.left).bind
    fun ⟨b', evicted⟩ hr => ?_
  exact Guarded.ok ⟨h.setBucket (fun k hk => update_of_ne hk _ _) hr.1,
    sameShape_setBucket _ _ _, fun hfit hfits => hfits.setBucket
      (hr.2.1 hfit.1 hfit.2 (hfits _ b hget))⟩

end

omit [HasLen ν] in
/-- An entry that is alive has a deadline that is its expiry. -/
lemma Serves.deadline (key : String) (value : Option ν) {expiration now : ℤ}
    (hrange : expiration < 2 ^ 63 ∧ -2 ^ 63 ≤ now ∧ now < 2 ^ 63)
    (h : Serves n₀ n₁ (update spec key (some (value, expiry expiration now))) s) :
    Serves n₀ n₁ (update spec key (some (value, deadline expiration now))) s := by
  intro i b hb
  refine (h i b hb).congr fun k x _ hpos hx => ?_
  rcases eq_or_ne k key with rfl | hne
  · rw [update_self, some.injEq] at hx ⊢
    subst hx
    rw [expiry_eq_deadline hrange.1 hrange.2 hpos]
  · rw [update_of_ne hne] at hx ⊢
    exact hx

omit [HasLen ν] in
lemma not_alive {b : Bucket ν} {k : String} {x : Option ν × ℤ}
    (h : b.1.entry k = none ∧ b.2.entry k = none) :
    ¬(b.1.entry k = some x ∨ b.2.entry k = some x) := by
  simp [h]

lemma Serves.delete (h : Serves n₀ n₁ spec s) (key : String) :
    Guarded (Proper n₀ n₁ s) (s.delete key) fun r =>
      Stepped n₀ n₁ s r.1 (update spec key none) True := by
  refine (bucket_spec h key).bind fun b ⟨hget, hb⟩ => ?_
  refine ((Bucket.deleteEntry hb.sound₀ hb.sound₁ key).of_imp And.left).bind
    fun ⟨b', deleted, evicted⟩ hr => ?_
  refine Guarded.ok ⟨h.setBucket (fun k hk => update_of_ne hk _ _) ?_,
    sameShape_setBucket _ _ _, fun _ hfits => hfits.setBucket ((hfits _ b hget).lose hr.toLost)⟩
  refine hb.lose hr.toLost fun k x hx => update_of_ne ?_ _ _
  rintro rfl
  exact not_alive (hr.gone k (by simp)) hx

/-- A pass over some buckets. -/
lemma sweep_spec (order : MapOrder) (p : Slot ν → Bool) (bs : List (Bucket ν))
    (h : ∀ b ∈ bs, Sound n₀ b.1 ∧ Sound n₁ b.2) :
    Guarded (n₀ ≠ 0 ∧ n₁ ≠ 0) (sweep order p bs) fun r =>
      List.Forall₂ (fun b b' => Bucket.Lost n₀ n₁ b b' ∧
        ((∀ nd, p nd = true) → ∀ k, b'.1.entry k = none ∧ b'.2.entry k = none)) bs r.1 := by
  induction bs with
  | nil => exact Guarded.ok List.Forall₂.nil
  | cons b bs ih =>
    have hb := h b (by simp)
    refine (Bucket.sweepBucket hb.1 hb.2 order p).bind fun ⟨b', evicted⟩ hb' => ?_
    refine (ih (forall_mem_cons.1 h).2).bind fun ⟨bs', evicted'⟩ hbs' => ?_
    exact Guarded.ok (List.Forall₂.cons hb' hbs')

/-- A pass over the store: it serves the same record, and an empty one if the pass is for all
entries. -/
lemma Serves.sweep (h : Serves n₀ n₁ spec s) (order : MapOrder) (p : Slot ν → Bool)
    {spec' : Record ν} (hspec : spec' = spec ∨ ∀ nd, p nd = true) :
    Guarded (Proper n₀ n₁ s) (sweep order p s.caches) fun r =>
      Stepped n₀ n₁ s { s with caches := r.1 } spec' True := by
  have hsound : ∀ b ∈ s.caches, Sound n₀ b.1 ∧ Sound n₁ b.2 := by
    intro b hb
    obtain ⟨i, hi⟩ := getElem?_of_mem hb
    exact ⟨(h i b hi).sound₀, (h i b hi).sound₁⟩
  refine ((sweep_spec order p s.caches hsound).of_imp And.left).mono fun r hr => ?_
  have hold : ∀ (i : ℕ) b', r.1[i]? = some b' → ∃ b, s.caches[i]? = some b ∧
      Bucket.Lost n₀ n₁ b b' ∧
        ((∀ nd, p nd = true) → ∀ k, b'.1.entry k = none ∧ b'.2.entry k = none) := by
    intro i b' hget
    obtain ⟨hlen, rfl⟩ := List.getElem?_eq_some_iff.1 hget
    have hlen' : i < s.caches.length := by
      rw [hr.length_eq]
      exact hlen
    exact ⟨_, getElem?_eq_getElem hlen', hr.get hlen' hlen⟩
  refine ⟨fun i b' hget => ?_, ⟨rfl, rfl, hr.length_eq.symm⟩, fun _ hfits i b' hget => ?_⟩
  · obtain ⟨b, hb, hlost, hall⟩ := hold i b' hget
    refine (h i b hb).lose hlost fun k x hx => ?_
    rcases hspec with rfl | hp
    · rfl
    · exact (not_alive (hall hp k) hx).elim
  · obtain ⟨b, hb, hlost, -⟩ := hold i b' hget
    exact (hfits i b hb).lose hlost

/-- **One call.** -/
lemma Serves.step (h : Serves n₀ n₁ spec s) {op : Op ν} (hop : op.inRange) :
    Guarded (Proper n₀ n₁ s) (s.step op) fun s' =>
      Stepped n₀ n₁ s s' (op.record spec) (op.fits s.maxBucketBytes) := by
  cases op with
  | set key value now =>
    refine (h.setWithExpiration key value 0 now).bind fun r hr => Guarded.ok
      ⟨hr.serves.deadline key value ⟨by decide, hop⟩, hr.shape, fun hfit => hr.fits ?_⟩
    exact ⟨(by decide : (0 : ℤ) < maxExpireAt), hfit⟩
  | setWithExpiration key value expiration now =>
    exact (h.setWithExpiration key value expiration now).bind fun r hr => Guarded.ok
      ⟨hr.serves.deadline key value hop, hr.shape, hr.fits⟩
  | get key now => exact (h.get key now).bind fun r hr => Guarded.ok hr.1
  | delete key => exact (h.delete key).bind fun r hr => Guarded.ok hr
  | clear order =>
    refine Guarded.bind (P := fun r => Stepped n₀ n₁ s r.1 _ _) ?_ fun r hr => Guarded.ok hr
    exact (h.sweep order (fun _ => true) (.inr fun _ => rfl)).bind fun r hr => Guarded.ok hr
  | cleanup order now =>
    refine Guarded.bind (P := fun r => Stepped n₀ n₁ s r.1 _ _) ?_ fun r hr => Guarded.ok hr
    exact (h.sweep order _ (.inl rfl)).bind fun r hr => Guarded.ok hr

/-- **A run of calls**, by induction. -/
lemma Serves.run (h : Serves n₀ n₁ spec s) (ops : List (Op ν)) (hops : ∀ op ∈ ops, op.inRange) :
    Guarded (Proper n₀ n₁ s) (s.run ops) fun s' =>
      Stepped n₀ n₁ s s' (ops.foldl Op.record spec) (∀ op ∈ ops, op.fits s.maxBucketBytes) := by
  induction ops generalizing s spec with
  | nil => exact Guarded.ok ⟨h, ⟨rfl, rfl, rfl⟩, fun _ hfits => hfits⟩
  | cons op ops ih =>
    rw [forall_mem_cons] at hops
    refine (h.step hops.1).bind fun s₁ h₁ => ?_
    refine ((ih h₁.serves hops.2).of_imp fun hg => hg.of_sameShape h₁.shape).mono fun s' h' => ?_
    refine ⟨h'.serves, ⟨h'.shape.mask.trans h₁.shape.mask,
      h'.shape.budget.trans h₁.shape.budget, h'.shape.length.trans h₁.shape.length⟩,
      fun hfit hfits => ?_⟩
    rw [forall_mem_cons] at hfit
    refine h'.fits ?_ (h₁.fits hfit.1 hfits)
    rw [h₁.shape.budget]
    exact hfit.2

/-! ## New stores -/

omit [HasLen ν] in
lemma idx_le (s : LruStore ν) (key : String) : s.idx key ≤ s.mask := Nat.and_le_right

/-- Powers of two below `2 ^ 15` bound the mask of the options they bound. -/
lemma maskOfNextPowOf2_lt {cap : UInt16} (h : cap.toNat ≤ 2 ^ 15) :
    (maskOfNextPowOf2 cap).toNat < 2 ^ 15 := by
  unfold maskOfNextPowOf2
  split
  · rename_i hpow
    have hpos : 0 < cap.toNat := UInt16.lt_iff_toNat_lt.1 hpow.1
    have hle : (1 : UInt16) ≤ cap := by
      exact hpos
    rw [UInt16.toNat_sub_of_le _ _ hle, UInt16.toNat_one]
    omega
  · rename_i hpow
    have hlt : cap.toNat < 2 ^ 15 := by
      refine lt_of_le_of_ne h fun heq => hpow ?_
      have hcap : cap = 32768 := UInt16.toNat_inj.1 heq
      rw [hcap]
      decide
    -- filling in lower bits does not reach the highest one
    have hfill : ∀ (x y : UInt16), x.toNat < 2 ^ 15 → (x ||| x >>> y).toNat < 2 ^ 15 := by
      intro x y hx
      exact Nat.or_lt_two_pow hx (lt_of_le_of_lt (Nat.shiftRight_le _ _) hx)
    exact hfill _ _ (hfill _ _ (hfill _ _ (hfill _ _ hlt)))

end

end LruStore

/-- The options with which no call stops: the sizes leave room for the sentinel and for the
number of the buckets. -/
def StoreOptions.proper (opts : StoreOptions) : Prop :=
  opts.bucketCount.toNat ≤ 2 ^ 15 ∧ opts.capPerBucket.toNat < 2 ^ 16 - 1 ∧
    opts.level2Cap.toNat < 2 ^ 16 - 1

section

variable [HasLen ν]

lemma ite_ne_zero {x d : UInt16} (hd : d ≠ 0) : (if x = 0 then d else x) ≠ 0 := by
  split
  · exact hd
  · assumption

/-- The number of links of a cache of the size `x`, or `d` if none is given. -/
def links (x d : UInt16) : ℕ := ((if x = 0 then d else x) + 1).toNat

lemma links_ne_zero_iff {x d : UInt16} (hd : d ≠ 65535) : links x d ≠ 0 ↔ x ≠ 65535 := by
  have hmax : ∀ {y : UInt16}, (y + 1).toNat ≠ 0 ↔ y ≠ 65535 := by
    intro y
    have hlt := y.toNat_lt
    have heq : y = 65535 ↔ y.toNat = 65535 := UInt16.toNat_inj.symm
    rw [UInt16.toNat_add, UInt16.toNat_one, ne_eq, ne_eq, heq]
    omega
  unfold links
  split
  · rename_i hx
    rw [hmax, hx]
    exact iff_of_true hd (by decide)
  · exact hmax

omit [HasLen ν] in
/-- A new store has new caches, and a budget if it is to have one. -/
lemma newStore_eq_ok {opts : StoreOptions} {s : LruStore ν} (h : newStore ν opts = .ok s) :
    (∀ b ∈ s.caches,
      b = (create ν (if opts.capPerBucket = 0 then 512 else opts.capPerBucket),
        create ν (if opts.level2Cap = 0 then 256 else opts.level2Cap))) ∧
    (0 < opts.maxBytes → 0 < s.maxBucketBytes) := by
  unfold newStore at h
  dsimp only at h
  generalize maskOfNextPowOf2 _ = mask at h
  by_cases hzero : 0 < opts.maxBytes ∧ (mask + 1).toNat = 0
  · rw [if_pos hzero] at h
    cases h
  · rw [if_neg hzero, Except.ok.injEq] at h
    subst h
    refine ⟨fun b hb => (mem_replicate.1 hb).2, fun hmax => ?_⟩
    dsimp only
    rw [if_pos hmax]
    split
    · decide
    · omega

/-- A new store serves nothing and fits, and its mask is in the range of its buckets. -/
lemma newStore_serves (opts : StoreOptions) :
    Ensures (newStore ν opts) fun s =>
      LruStore.Serves (links opts.capPerBucket 512) (links opts.level2Cap 256) (fun _ => none) s ∧
      LruStore.Fits s ∧ (0 < opts.maxBytes → s.caches ≠ []) ∧
      (s.caches ≠ [] → ∀ key, s.idx key < s.caches.length) := by
  unfold newStore links
  dsimp only
  generalize maskOfNextPowOf2 (if opts.bucketCount = 0 then 16 else opts.bucketCount) = mask at *
  generalize hcap₀ : (if opts.capPerBucket = 0 then 512 else opts.capPerBucket) = cap₀
  generalize hcap₁ : (if opts.level2Cap = 0 then 256 else opts.level2Cap) = cap₁
  have hne₀ : cap₀ ≠ 0 := by
    rw [← hcap₀]
    exact ite_ne_zero (by decide)
  have hne₁ : cap₁ ≠ 0 := by
    rw [← hcap₁]
    exact ite_ne_zero (by decide)
  split
  · exact .error _
  · rename_i hzero
    refine .ok ⟨?_, ?_, fun hmax hnil => hzero ⟨hmax, ?_⟩, fun hne key => ?_⟩
    · intro i b hget
      have hb := (mem_replicate.1 (mem_of_getElem? hget)).2
      subst hb
      refine ⟨sound_create ν hne₀, sound_create ν hne₁, fun k x _ hx => ?_, fun k x _ hx => ?_,
        fun k _ => .inl rfl⟩
      · cases hx
      · cases hx
    · intro i b hget
      have hb := (mem_replicate.1 (mem_of_getElem? hget)).2
      subst hb
      refine ⟨create_accounted _, create_accounted _, fun hb => ?_⟩
      have hzero : Bucket.liveBytes (create ν cap₀, create ν cap₁) = 0 := by
        unfold Bucket.liveBytes
        rw [create_liveBytes, create_liveBytes, add_zero]
      rw [hzero]
      exact hb.le
    · have hlen := congrArg length hnil
      rwa [length_replicate] at hlen
    · have hpos : 0 < (mask + 1).toNat := by
        have hlen := length_pos_iff.2 hne
        rwa [length_replicate] at hlen
      have hle := LruStore.idx_le (LruStore.mk (replicate (mask + 1).toNat
        (create ν cap₀, create ν cap₁)) 0 mask.toNat) key
      have hlt := mask.toNat_lt
      rw [length_replicate]
      rw [UInt16.toNat_add, UInt16.toNat_one] at hpos ⊢
      refine lt_of_le_of_lt hle ?_
      change mask.toNat < _
      omega

/-- A new store serves nothing, fits, and is proper if its options are. -/
lemma newStore_spec (opts : StoreOptions) :
    Guarded opts.proper (newStore ν opts) fun s =>
      ∃ n₀ n₁, LruStore.Serves n₀ n₁ (fun _ => none) s ∧ LruStore.Fits s ∧
        (opts.proper → LruStore.Proper n₀ n₁ s) := by
  have hbuckets : opts.proper → ((maskOfNextPowOf2 (if opts.bucketCount = 0 then 16
      else opts.bucketCount)) + 1).toNat ≠ 0 := by
    intro hproper
    have hlt : (maskOfNextPowOf2 (if opts.bucketCount = 0 then 16
        else opts.bucketCount)).toNat < 2 ^ 15 := by
      refine LruStore.maskOfNextPowOf2_lt ?_
      split
      · decide
      · exact hproper.1
    rw [UInt16.toNat_add, UInt16.toNat_one]
    omega
  constructor
  · intro s hs
    obtain ⟨hserves, hfits, -, hidx⟩ := newStore_serves opts s hs
    refine ⟨_, _, hserves, hfits, fun hproper => ⟨⟨?_, ?_⟩, hidx ?_⟩⟩
    · refine (links_ne_zero_iff (by decide)).2 fun heq => ?_
      have := hproper.2.1
      rw [heq] at this
      exact absurd this (by decide)
    · refine (links_ne_zero_iff (by decide)).2 fun heq => ?_
      have := hproper.2.2
      rw [heq] at this
      exact absurd this (by decide)
    · unfold newStore at hs
      rw [if_neg fun hzero => hbuckets hproper hzero.2, Except.ok.injEq] at hs
      rw [← hs]
      exact length_pos_iff.1 (by simpa [Nat.pos_iff_ne_zero] using hbuckets hproper)
  · intro hproper
    unfold newStore
    rw [if_neg fun hzero => hbuckets hproper hzero.2]
    exact .ok _

/-- **Every call returns** for proper options. -/
theorem LruStore.run_returns {opts : StoreOptions} (hproper : opts.proper)
    (ops : List (LruStore.Op ν)) (hops : ∀ op ∈ ops, op.inRange) :
    ∃ s₀ s, newStore ν opts = .ok s₀ ∧ s₀.run ops = .ok s := by
  obtain ⟨s₀, hs₀⟩ := (newStore_spec (ν := ν) opts).succeeds hproper
  obtain ⟨n₀, n₁, hserves, -, hs⟩ := (newStore_spec opts).ensures s₀ hs₀
  obtain ⟨s, hrun⟩ := (hserves.run ops hops).succeeds (hs hproper)
  exact ⟨s₀, s, hs₀, hrun⟩

theorem LruStore.run_returns_deleted : ∃ s₀ s : LruStore ByteView,
    newStore ByteView ⟨0, 1, 1, 1⟩ = .ok s₀ ∧ s₀.run [.set "a" none 5, .delete "a"] = .ok s :=
  LruStore.run_returns (by simp [StoreOptions.proper]) _ (by simp [Op.inRange])

/-- **The store serves what was set last.** After any calls, `Get` returns nothing, or the
value of the last `Set` of the key, with no `Delete` or `Clear` after it, and before its
expiry. No key is alive in both levels of its bucket. For proper options `Get` returns. -/
theorem get_serves_last_set (opts : StoreOptions) (ops : List (LruStore.Op ν))
    (s₀ s : LruStore ν) (hnew : newStore ν opts = .ok s₀) (hops : ∀ op ∈ ops, op.inRange)
    (hrun : s₀.run ops = .ok s) :
    (∀ key now s' v evicted, s.get key now = .ok (s', some v, evicted) →
      ∃ e, LruStore.recorded ops key = some (v, e) ∧ now < e) ∧
    (∀ key b, s.caches[s.idx key]? = some b → b.1.entry key = none ∨ b.2.entry key = none) ∧
    (opts.proper → ∀ key now, ∃ r, s.get key now = .ok r) := by
  obtain ⟨n₀, n₁, hserves₀, -, hproper⟩ := (newStore_spec opts).ensures s₀ hnew
  have hstepped := (hserves₀.run ops hops).ensures s hrun
  have hserves : LruStore.Serves n₀ n₁ (LruStore.recorded ops) s := hstepped.serves
  refine ⟨fun key now s' v evicted hget => ?_, fun key b hb => ?_, fun hopts key now => ?_⟩
  · exact ((hserves.get key now).ensures _ hget).2 v rfl
  · exact (hserves _ b hb).one key rfl
  · exact (hserves.get key now).succeeds ((hproper hopts).of_sameShape hstepped.shape)

/-- **Bytes and budget.** In a run whose entries expire at an instant that is an `int64`, and
whose bytes stay in `int64`, every cache counts the bytes of its entries right, and with a
budget every bucket is in it. -/
theorem bytes_in_budget (opts : StoreOptions) (ops : List (LruStore.Op ν)) (s₀ s : LruStore ν)
    (hnew : newStore ν opts = .ok s₀) (hops : ∀ op ∈ ops, op.inRange)
    (hfits : ∀ op ∈ ops, op.fits s₀.maxBucketBytes) (hrun : s₀.run ops = .ok s) (i : ℕ)
    (b : Bucket ν) (hb : s.caches[i]? = some b) :
    (b.1.liveBytes < 2 ^ 63 → b.1.bytes = b.1.liveBytes) ∧
    (b.2.liveBytes < 2 ^ 63 → b.2.bytes = b.2.liveBytes) ∧
    (0 < opts.maxBytes → b.1.liveBytes + b.2.liveBytes ≤ s.maxBucketBytes) := by
  obtain ⟨n₀, n₁, hserves₀, hfits₀, -⟩ := (newStore_spec opts).ensures s₀ hnew
  have hstepped := (hserves₀.run ops hops).ensures s hrun
  have hfit := hstepped.fits hfits hfits₀ i b hb
  have hpos₀ := liveBytes_nonneg b.1
  have hpos₁ := liveBytes_nonneg b.2
  refine ⟨fun hlt => ?_, fun hlt => ?_, fun hmax => hfit.budget ?_⟩
  · rw [hfit.accounted₀, int64_eq (by omega) hlt]
  · rw [hfit.accounted₁, int64_eq (by omega) hlt]
  · rw [hstepped.shape.budget]
    exact (newStore_eq_ok hnew).2 hmax

end

/-- One bucket with two slots in each level and a budget of `n` bytes. -/
def oneBucket (n : ℤ) : StoreOptions :=
  { maxBytes := n, bucketCount := 1, capPerBucket := 2, level2Cap := 2 }

/-- A value of one byte. -/
def oneByte : ByteView := { b := [0] }

/-- The clock is at 5, the value is set with 10 nanoseconds to live and read at 7. -/
theorem get_serves_last_set_before_expiry :
    ∃ (s₀ s s' : LruStore ByteView) (evicted : List (Evicted ByteView)),
      newStore ByteView (oneBucket 0) = .ok s₀ ∧
      s₀.run [.set "a" none 5, .setWithExpiration "a" (some oneByte) 10 5] = .ok s ∧
      s.get "a" 7 = .ok (s', some (some oneByte), evicted) ∧
      ∃ e, LruStore.recorded [.set "a" none 5, .setWithExpiration "a" (some oneByte) 10 5] "a" =
        some (some oneByte, e) ∧ 7 < e := by
  obtain ⟨s₀, hnew, s, hrun, ⟨s', _, evicted⟩, hget, rfl⟩ :
      ∃ s₀, newStore ByteView (oneBucket 0) = .ok s₀ ∧
        ∃ s, s₀.run [.set "a" none 5, .setWithExpiration "a" (some oneByte) 10 5] = .ok s ∧
          ∃ r, s.get "a" 7 = .ok r ∧ r.2.1 = some (some oneByte) := by decide +kernel
  refine ⟨s₀, s, s', evicted, hnew, hrun, hget, ?_⟩
  exact (get_serves_last_set (oneBucket 0) _ s₀ s hnew (by decide +kernel) hrun).1 "a" 7 s' _
    evicted hget

/-- Two entries of two bytes in a budget of three: the older one is evicted. -/
theorem bytes_in_budget_evicts :
    ∃ (s₀ s : LruStore ByteView) (b : Bucket ByteView),
      newStore ByteView (oneBucket 3) = .ok s₀ ∧
      s₀.run [.set "a" (some oneByte) 5, .setWithExpiration "b" (some oneByte) 10 5] = .ok s ∧
      s.caches[0]? = some b ∧ s.maxBucketBytes = 3 ∧ b.1.liveBytes + b.2.liveBytes ≤ 3 := by
  obtain ⟨s₀, hnew, hmax₀, s, hrun, hmax, b, hb, -⟩ :
      ∃ s₀, newStore ByteView (oneBucket 3) = .ok s₀ ∧ s₀.maxBucketBytes = 3 ∧
        ∃ s, s₀.run [.set "a" (some oneByte) 5, .setWithExpiration "b" (some oneByte) 10 5] =
            .ok s ∧
          s.maxBucketBytes = 3 ∧ ∃ b, s.caches[0]? = some b ∧ True := by decide +kernel
  refine ⟨s₀, s, b, hnew, hrun, hb, hmax, ?_⟩
  have hbudget := (bytes_in_budget (oneBucket 3) _ s₀ s hnew (by decide +kernel)
    (by rw [hmax₀]; decide +kernel) hrun 0 b hb).2.2 (by decide)
  rwa [hmax] at hbudget

/-- **An expiry that overflows.** At the instant 1 a value is set with `math.MaxInt64`
nanoseconds to live. Its expiry is negative, so the entry is dead, but its two bytes are
counted. -/
theorem dead_entry_is_counted :
    ∃ (s₀ s : LruStore ByteView) (b : Bucket ByteView),
      newStore ByteView (oneBucket 0) = .ok s₀ ∧
      s₀.run [.setWithExpiration "a" (some oneByte) (2 ^ 63 - 1) 1] = .ok s ∧
      s.caches[0]? = some b ∧ b.1.bytes = 2 ∧ b.1.liveBytes = 0 := by
  obtain ⟨s₀, hnew, s, hrun, b, hb, hbytes⟩ : ∃ s₀, newStore ByteView (oneBucket 0) = .ok s₀ ∧
      ∃ s, s₀.run [.setWithExpiration "a" (some oneByte) (2 ^ 63 - 1) 1] = .ok s ∧
        ∃ b, s.caches[0]? = some b ∧ b.1.bytes = 2 ∧ b.1.liveBytes = 0 := by decide +kernel
  exact ⟨s₀, s, b, hnew, hrun, hb, hbytes⟩

end Yukino.Caches
