import Yukino.Cache.LruSpec

set_option autoImplicit false

/-!
# The LRU cache keeps its slots in the order of their use

The operations of `cache`, in any sequence that `lruStore` can issue. The links go through all
slots in use, the dead ones come last, and the others are in the order of their last `put` or
`adjust`.

## Main definitions

* `Lru.Call`, `Lru.run` — sequences of operations of one cache.
* `Lru.touchedAt` — when a key was last put or adjusted.
* `Lru.InOrder` — the representation of a cache after some operations.

## Main results

* `Lru.inOrder_run_iff` — the representation after any operations.

## Design

`Get` calls `adjust` for a slot that `peek` has found alive, and `Call.adjust` is the two
together. An entry that `put` gets with an `expireAt` that is not positive is dead from the
start and yet becomes the first one; `Call.positive` excludes it. `SetWithExpiration` calls
`put` that way if `Now() + expiration` overflows.
-/

namespace Yukino.Caches

open MachineInt LinkedRing Outcome List

variable {ν : Type}

namespace Lru

/-- A call of an operation of a cache. -/
inductive Call (ν : Type)
  | put (key : String) (val : Option ν) (expireAt : ℤ)
  | del (key : String)
  | drop (key : String)
  | evictOldest
  | peek (key : String)
  /-- `adjust(idx, p, n)` for the slot of the key, if `peek` finds it alive. -/
  | adjust (key : String)
  | walk

/-- What is put is alive. -/
def Call.positive : Call ν → Prop
  | .put _ _ expireAt => 0 < expireAt
  | _ => True

/-- The call makes the key the one that was used last. -/
def Call.touches (key : String) : Call ν → Bool
  | .put k _ _ => k = key
  | .adjust k => k = key
  | _ => false

/-- The number of the last call that has touched the key, counted from 1; 0 if there is none. -/
def touchedAt (calls : List (Call ν)) (key : String) : ℕ :=
  calls.length - calls.reverse.findIdx (Call.touches key)

lemma touchedAt_le (calls : List (Call ν)) (key : String) : touchedAt calls key ≤ calls.length :=
  Nat.sub_le _ _

lemma touchedAt_append (calls : List (Call ν)) (call : Call ν) (key : String) :
    touchedAt (calls ++ [call]) key =
      if call.touches key then calls.length + 1 else touchedAt calls key := by
  unfold touchedAt
  rw [reverse_append, reverse_singleton, singleton_append, findIdx_cons,
    length_append, length_singleton]
  cases call.touches key with
  | true => simp
  | false =>
    dsimp only [cond_false]
    rw [Nat.add_sub_add_right]
    rfl

/-- The key of a slot. -/
def key (c : Lru ν) (i : ℕ) : String := c.m[i - 1]?.elim "" Slot.k

def alive (c : Lru ν) (i : ℕ) : Bool := c.m[i - 1]?.any fun nd => decide (0 < nd.expireAt)

lemma key_eq {c : Lru ν} {i : ℕ} {nd : Slot ν} (h : c.m[i - 1]? = some nd) : c.key i = nd.k := by
  rw [key, h, Option.elim_some]

lemma alive_eq {c : Lru ν} {i : ℕ} {nd : Slot ν} (h : c.m[i - 1]? = some nd) :
    c.alive i = decide (0 < nd.expireAt) := by
  rw [alive, h, Option.any_some]

/-- The cache after some calls. Its links go through the slots `live ++ dead`. -/
structure InOrder (calls : List (Call ν)) (c : Lru ν) (live dead : List ℕ) : Prop where
  rep : Rep c (live ++ dead)
  all_live : ∀ i ∈ live, c.alive i = true
  all_dead : ∀ i ∈ dead, c.alive i = false
  recent : live.Pairwise fun i j => touchedAt calls (c.key j) < touchedAt calls (c.key i)

section

variable [HasLen ν]

def call (c : Lru ν) : Call ν → Except Fault (Lru ν)
  | .put key val expireAt => do .ok (← c.put key val expireAt).1
  | .del key => do .ok (← c.del key).1
  | .drop key => c.drop key
  | .evictOldest => do .ok (← c.evictOldest).1
  | .peek key => do
    let _ ← c.peek key
    .ok c
  | .adjust key => do
    match ← c.peek key with
    | some (nd, idx) => if 0 < nd.expireAt then c.adjust idx .prev .next else .ok c
    | none => .ok c
  | .walk => do
    let _ ← c.walk
    .ok c

def run (c : Lru ν) (calls : List (Call ν)) : Except Fault (Lru ν) := calls.foldlM call c

end

/-! ## One call -/

/-- Erasing from both parts of a list without repetitions. -/
lemma erase_append_of_nodup {l₁ l₂ : List ℕ} (h : (l₁ ++ l₂).Nodup) (i : ℕ) :
    (l₁ ++ l₂).erase i = l₁.erase i ++ l₂.erase i := by
  rw [h.erase_eq_filter, (nodup_append.1 h).1.erase_eq_filter,
    (nodup_append.1 h).2.1.erase_eq_filter, filter_append]

variable {c c' : Lru ν} {l live dead : List ℕ} {i j : ℕ} {nd z : Slot ν}
  {calls : List (Call ν)} {op : Call ν}

lemma Rep.nodup (h : Rep c l) : l.Nodup := (nodup_cons.1 h.ring.nodup).2

lemma Rep.lookup_key (h : Rep c l) (hi : i ∈ l) : c.hashMap.lookup (c.key i) = some i := by
  obtain ⟨nd, hnd, -, hlookup⟩ := h.exists_slot hi
  rw [key_eq hnd, hlookup]

lemma Rep.peek (h : Rep c l) (k : String) :
    Returns (c.peek k) fun r =>
      (r = none ∧ c.hashMap.lookup k = none) ∨
      ∃ i nd, r = some (nd, i) ∧ c.hashMap.lookup k = some i ∧ i ∈ l ∧ c.m[i - 1]? = some nd ∧
        nd.k = k := by
  unfold Lru.peek
  cases hlookup : c.hashMap.lookup k with
  | none => exact .ok (.inl ⟨rfl, rfl⟩)
  | some i =>
    obtain ⟨hi, nd, hnd, hk⟩ := (h.lookup _ _).1 hlookup
    change Returns (c.slot i >>= _) _
    rw [h.slot_eq hi hnd]
    exact .ok (.inr ⟨i, nd, rfl, rfl, hi, hnd, hk⟩)

/-- A write to the slot `i` leaves the others. -/
lemma getElem?_of_set (hslots : c'.m = c.m.set (i - 1) z) (hi : 1 ≤ i) (hj : 1 ≤ j)
    (hne : j ≠ i) : c'.m[j - 1]? = c.m[j - 1]? := by
  rw [hslots, getElem?_set_ne (by omega)]

namespace InOrder

section

variable (h : InOrder calls c live dead)
include h

lemma mem_pos (hj : j ∈ live ++ dead) : 1 ≤ j :=
  ((h.rep.mem j).1 hj).1

/-- A slot is written, and the others keep their keys and stay alive or dead. -/
lemma frame (hslots : c'.m = c.m.set (i - 1) z) (hi : 1 ≤ i) :
    (∀ j ∈ live.erase i, c'.alive j = true ∧ c'.key j = c.key j) ∧
    ∀ j ∈ dead.erase i, c'.alive j = false := by
  have hlive := (nodup_append.1 h.rep.nodup).1
  have hdead := (nodup_append.1 h.rep.nodup).2.1
  refine ⟨fun j hj => ?_, fun j hj => ?_⟩
  · obtain ⟨hne, hj⟩ := hlive.mem_erase_iff.1 hj
    have hget := getElem?_of_set hslots hi (h.mem_pos (mem_append_left _ hj)) hne
    refine ⟨?_, by rw [key, key, hget]⟩
    rw [alive, hget]
    exact h.all_live j hj
  · obtain ⟨hne, hj⟩ := hdead.mem_erase_iff.1 hj
    have hget := getElem?_of_set hslots hi (h.mem_pos (mem_append_right _ hj)) hne
    rw [alive, hget]
    exact h.all_dead j hj

/-- A slot gets an entry and becomes the first one.

**Proof sketch.** No other slot has the key that is touched, so the other slots keep the
numbers of their last calls, which are smaller. -/
lemma front (hrep : Rep c' (i :: (live ++ dead).erase i))
    (hslots : c'.m = c.m.set (i - 1) z) (hz : 0 < z.expireAt)
    (htouch : ∀ k, op.touches k = decide (z.k = k)) :
    InOrder (calls ++ [op]) c' (i :: live.erase i) (dead.erase i) := by
  have hi := (hrep.mem i).1 mem_cons_self
  have hlen : i - 1 < c.m.length := by
    have := hrep.last
    rw [hslots, length_set] at this
    omega
  have hget : c'.m[i - 1]? = some z := by rw [hslots, getElem?_set_self hlen]
  have hsplit := erase_append_of_nodup h.rep.nodup i
  obtain ⟨hlive, hdead⟩ := h.frame hslots hi.1
  -- the other slots have other keys
  have hother : ∀ j ∈ live.erase i, touchedAt (calls ++ [op]) (c'.key j) =
      touchedAt calls (c.key j) := by
    intro j hj
    have hmem : j ∈ i :: (live ++ dead).erase i := by
      rw [hsplit]
      exact mem_cons_of_mem _ (mem_append_left _ hj)
    have hne : z.k ≠ c'.key j := by
      intro heq
      have hlookup := hrep.lookup_key hmem
      rw [← heq, hrep.lookup_slot mem_cons_self hget, Option.some.injEq] at hlookup
      rw [← hlookup, (nodup_append.1 h.rep.nodup).1.mem_erase_iff] at hj
      exact hj.1 rfl
    rw [touchedAt_append, htouch, decide_eq_false hne, (hlive j hj).2]
    rfl
  have hfirst : touchedAt (calls ++ [op]) (c'.key i) = calls.length + 1 := by
    rw [touchedAt_append, htouch, key_eq hget, decide_eq_true rfl]
    rfl
  refine ⟨?_, fun j hj => ?_, hdead, ?_⟩
  · rw [cons_append, ← hsplit]
    exact hrep
  · rcases mem_cons.1 hj with rfl | hj
    · rw [alive_eq hget, decide_eq_true hz]
    · exact (hlive j hj).1
  · refine pairwise_cons.2 ⟨fun j hj => ?_, ?_⟩
    · rw [hother j hj, hfirst]
      exact Nat.lt_succ_of_le (touchedAt_le _ _)
    · refine (h.recent.sublist erase_sublist).imp_of_mem fun hj₁ hj₂ hlt => ?_
      rw [hother _ hj₁, hother _ hj₂]
      exact hlt

/-- A call that touches no key that is alive leaves the numbers of the last calls. -/
lemma keep (htouch : ∀ i ∈ live, op.touches (c.key i) = false) :
    InOrder (calls ++ [op]) c live dead := by
  refine ⟨h.rep, h.all_live, h.all_dead, h.recent.imp_of_mem fun hi hj hlt => ?_⟩
  rw [touchedAt_append, touchedAt_append, htouch _ hi, htouch _ hj]
  exact hlt

/-- The key that a call touches, if it is not alive, is not the key of a slot that is. -/
lemma ne_key {k : String}
    (hk : ∀ i ∈ live ++ dead, c.hashMap.lookup k = some i → c.alive i = false) (hi : i ∈ live) :
    k ≠ c.key i := by
  rintro rfl
  have hmem : i ∈ live ++ dead := mem_append_left _ hi
  have hdead := hk i hmem (h.rep.lookup_key hmem)
  rw [h.all_live i hi] at hdead
  cases hdead

end

variable [HasLen ν]

variable (h : InOrder calls c live dead)
include h

/-- A slot dies and becomes the last one. -/
lemma back (hburied : Buried c c' (live ++ dead) i nd)
    (htouch : ∀ k, op.touches k = false) :
    InOrder (calls ++ [op]) c' (live.erase i) (dead.erase i ++ [i]) := by
  obtain ⟨z, hplaced, -, hz⟩ := hburied.placed
  have hi := h.mem_pos hburied.mem
  have hlen : i - 1 < c.m.length := (List.getElem?_eq_some_iff.1 hburied.slot).1
  have hget : c'.m[i - 1]? = some z := by rw [hplaced.slots, getElem?_set_self hlen]
  obtain ⟨hlive, hdead⟩ := h.frame hplaced.slots hi
  refine ⟨?_, fun j hj => (hlive j hj).1, fun j hj => ?_, ?_⟩
  · rw [← append_assoc, ← erase_append_of_nodup h.rep.nodup i]
    exact hplaced.rep
  · rcases mem_append.1 hj with hj | hj
    · exact hdead j hj
    · rw [mem_singleton.1 hj, alive_eq hget, hz]
      rfl
  · refine (h.recent.sublist erase_sublist).imp_of_mem fun hj₁ hj₂ hlt => ?_
    rw [touchedAt_append, touchedAt_append, htouch, htouch, (hlive _ hj₁).2, (hlive _ hj₂).2]
    exact hlt

/-- **A call keeps the order.** -/
lemma call (op : Call ν) (hop : op.positive) :
    Returns (c.call op) fun c' => ∃ live' dead', InOrder (calls ++ [op]) c' live' dead' := by
  cases op with
  | put k val expireAt =>
    refine (h.rep.put k val expireAt).bind fun r hr => ?_
    obtain ⟨i, hplaced⟩ := hr.placed
    exact .ok ⟨_, _, h.front hplaced.rep hplaced.slots hop fun k' => rfl⟩
  | del k =>
    refine (h.rep.del k).bind fun r hr => .ok ?_
    obtain ⟨-, -, hnone, hsome⟩ := hr
    cases hfound : r.2 with
    | none =>
      rw [hnone hfound]
      exact ⟨_, _, h.keep fun _ _ => rfl⟩
    | some x => exact ⟨_, _, h.back (hsome x hfound).2.1 fun _ => rfl⟩
  | drop k =>
    refine (h.rep.del k).bind fun r hr => .ok ?_
    obtain ⟨-, -, hnone, hsome⟩ := hr
    cases hfound : r.2 with
    | none =>
      rw [hnone hfound]
      exact ⟨_, _, h.keep fun _ _ => rfl⟩
    | some x =>
      rw [← hfound]
      exact ⟨_, _, h.back (hsome x hfound).2.2 fun _ => rfl⟩
  | evictOldest =>
    refine h.rep.evictOldest.bind fun r hr => .ok ?_
    rcases hr with ⟨rfl, -⟩ | ⟨nd, -, -, hlast⟩
    · exact ⟨_, _, h.keep fun _ _ => rfl⟩
    · obtain ⟨l₁, i, l₂, -, -, hburied⟩ := hlast.buried
      exact ⟨_, _, h.back hburied fun _ => rfl⟩
  | peek k => exact (h.rep.peek k).bind fun _ _ => .ok ⟨_, _, h.keep fun _ _ => rfl⟩
  | adjust k =>
    refine (h.rep.peek k).bind fun r hr => ?_
    rcases hr with ⟨rfl, hlookup⟩ | ⟨i, nd, rfl, hlookup, hi, hnd, rfl⟩
    · refine .ok ⟨_, _, h.keep fun i hi => decide_eq_false (h.ne_key (fun j _ hj => ?_) hi)⟩
      rw [hlookup] at hj
      cases hj
    · change Returns (if 0 < nd.expireAt then _ else _) _
      split
      · rename_i hlive
        obtain ⟨d, hadjust, hrep⟩ := h.rep.adjust_front hi
        have hslots : c.m = c.m.set (i - 1) nd := by
          obtain ⟨hlen, rfl⟩ := List.getElem?_eq_some_iff.1 hnd
          rw [set_getElem_self]
        exact ⟨_, hadjust, _, _, h.front hrep hslots hlive fun k' => rfl⟩
      · rename_i hdead
        refine .ok ⟨_, _, h.keep fun j hj =>
          decide_eq_false (h.ne_key (fun j' _ hj' => ?_) hj)⟩
        rw [hlookup, Option.some.injEq] at hj'
        rw [← hj', alive_eq hnd, decide_eq_false hdead]
  | walk =>
    exact h.rep.walk.bind fun _ _ => .ok ⟨_, _, h.keep fun _ _ => rfl⟩

/-! ## All calls -/

/-- Calls after some others, by induction. -/
lemma run (ops : List (Call ν)) (hops : ∀ op ∈ ops, op.positive) :
    Returns (c.run ops) fun c' => ∃ live' dead', InOrder (calls ++ ops) c' live' dead' := by
  induction ops generalizing calls c live dead with
  | nil =>
    rw [append_nil]
    exact .ok ⟨live, dead, h⟩
  | cons op ops ih =>
    rw [forall_mem_cons] at hops
    refine (h.call op hops.1).bind fun c' ⟨live', dead', h'⟩ => ?_
    rw [append_cons]
    exact ih h' hops.2

end InOrder

/-- A new cache, if `cap + 1` does not overflow. -/
lemma inOrder_create (ν : Type) {cap : UInt16} (hpos : cap ≠ 0) (hmax : cap ≠ 65535) :
    InOrder [] (create ν cap) [] [] := by
  have hlinks : (cap + 1).toNat ≠ 0 := by
    have hlt := cap.toNat_lt
    have hne : cap.toNat ≠ 65535 := fun h => hmax (UInt16.toNat_inj.1 h)
    rw [UInt16.toNat_add, UInt16.toNat_one]
    omega
  obtain ⟨l, hrep⟩ := (sound_create ν hpos).rep hlinks
  have hl : l = [] := by
    refine eq_nil_iff_forall_not_mem.2 fun i hi => ?_
    have hle := (hrep.mem i).1 hi
    change 1 ≤ i ∧ i ≤ 0 at hle
    omega
  rw [hl] at hrep
  refine ⟨hrep, fun i hi => ?_, fun i hi => ?_, List.Pairwise.nil⟩
  · cases hi
  · cases hi

section

variable [HasLen ν]

/-- A cache with 65535 slots has no links, and the first `put` stops. -/
lemma put_create_max (key : String) (val : Option ν) (expireAt : ℤ) :
    (create ν 65535).put key val expireAt = .error .indexOutOfRange := by
  have hlookup : (create ν 65535).hashMap.lookup key = none := AList.lookup_empty key
  unfold Lru.put
  rfl

/-- **The slots are in the order of their use.** After any calls in which every entry that is
put is alive, the links go once through all slots in use, in both directions, and the map has
the slot of every key; the slots that are dead come last, and the others are in the order of
their last `put` or `adjust`. No call stops. This holds for all sizes but 65535. -/
theorem inOrder_run_iff (cap : UInt16) (hpos : cap ≠ 0) :
    (∀ calls : List (Call ν), (∀ op ∈ calls, op.positive) →
      ∃ c live dead, (create ν cap).run calls = .ok c ∧ InOrder calls c live dead) ↔
    cap ≠ 65535 := by
  constructor
  · rintro h rfl
    obtain ⟨c, -, -, hrun, -⟩ := h [.put "" none 1] (by simp [Call.positive])
    cases hrun
  · intro hmax calls hcalls
    obtain ⟨c, hrun, live, dead, h⟩ := (inOrder_create ν hpos hmax).run calls hcalls
    exact ⟨c, live, dead, hrun, h⟩

/-- Two slots: the key that was read stays, and the other one makes room for the third key. -/
theorem inOrder_run_iff_two :
    ∃ c live dead, (create ByteView 2).run
        [.put "a" none 5, .put "b" none 6, .adjust "a", .put "c" none 7] = .ok c ∧
      InOrder [.put "a" none 5, .put "b" none 6, .adjust "a", .put "c" none 7] c live dead :=
  (inOrder_run_iff 2 (by decide)).2 (by decide) _ (by simp [Call.positive])

/-- **No links, and an expiry that overflows.** In a cache with 65535 slots the first `put`
stops. In one with two slots, "a" is put to live for ever, and then "b" with `math.MaxInt64`
nanoseconds to live at the instant 1: its expiry is negative, so a slot that is dead is the
first one, before the one of "a". -/
theorem out_of_order :
    (create ByteView 65535).run [.put "a" none maxExpireAt] = .error .indexOutOfRange ∧
    ∃ c, (create ByteView 2).run
        [.put "a" none maxExpireAt, .put "b" none (LruStore.expiry (2 ^ 63 - 1) 1)] = .ok c ∧
      ∀ live dead, ¬ InOrder
        [.put "a" none maxExpireAt, .put "b" none (LruStore.expiry (2 ^ 63 - 1) 1)]
        c live dead := by
  constructor
  · rw [Lru.run, foldlM_cons, Lru.call, put_create_max]
    rfl
  · obtain ⟨c, hc, hhead, hlast, hdead, halive⟩ : ∃ c, (create ByteView 2).run
        [.put "a" none maxExpireAt, .put "b" none (LruStore.expiry (2 ^ 63 - 1) 1)] = .ok c ∧
        c.doubleLink.link .next 0 = 2 ∧ c.last = 2 ∧ c.alive 2 = false ∧ c.alive 1 = true := by
      decide +kernel
    refine ⟨c, hc, fun live dead h => ?_⟩
    have hfirst := h.rep.ring.link_sentinel
    rw [hhead] at hfirst
    cases live with
    | nil =>
      have hmem : 1 ∈ [] ++ dead := (h.rep.mem 1).2 ⟨le_rfl, by omega⟩
      rw [h.all_dead 1 hmem] at halive
      cases halive
    | cons i live =>
      have hi : i = 2 := hfirst.symm
      rw [← hi, h.all_live i mem_cons_self] at hdead
      cases hdead

end

end Lru

end Yukino.Caches
