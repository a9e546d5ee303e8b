import Yukino.Cache.Lru
import Yukino.Lib.Outcome

set_option autoImplicit false

/-!
# The LRU cache is a map

What the operations of `cache` do to the entries that are alive, and to the bytes.
-/

namespace Yukino.Caches

open MachineInt LinkedRing Outcome List AList Option

namespace LinkTable

variable {d : LinkTable} {i n : ℕ} {α : Type} {l : List ℕ}

lemma get_eq (h : i < d.size) (f : Dir) :
    d.get i f = .ok (d.link f i) := if_pos h

lemma set_eq (h : i < d.size) (f : Dir) (v : ℕ) :
    d.set i f v = .ok { d with link := setLink d.link f i v } := if_pos h

lemma get_bind (h : i < n) (link : Links ℕ) (f : Dir)
    (k : ℕ → Except Fault α) : ((LinkTable.mk n link).get i f >>= k) = k (link f i) := by
  rw [get_eq h]
  rfl

lemma set_bind (h : i < n) (link : Links ℕ) (f : Dir) (v : ℕ)
    (k : LinkTable → Except Fault α) :
    ((LinkTable.mk n link).set i f v >>= k) = k ⟨n, setLink link f i v⟩ := by
  rw [set_eq h]
  rfl

/-- The first of some cells, or the sentinel, is in the table if the cells are. -/
lemma headD_lt (h : ∀ i ∈ 0 :: l, i < n) : l.headD 0 < n := by
  cases l with
  | nil => exact h 0 (by simp)
  | cons a l => exact h a (by simp)

/-- **`adjust` moves a slot to the front.** -/
lemma adjust_eq {t : Dir} {x : ℕ} (h : Ring 0 d.link t l)
    (hx : x ∈ l) (hsize : ∀ i ∈ 0 :: l, i < d.size) :
    ∃ link, d.adjust x t.flip t = .ok { d with link := link } ∧
      Ring 0 link t (x :: l.erase x) := by
  obtain ⟨n, link⟩ := d
  dsimp only at h hsize ⊢
  obtain ⟨l₁, l₂, rfl⟩ := append_of_mem hx
  have hnodup : (x :: (l₁ ++ l₂)).Nodup :=
    perm_middle.nodup_iff.1 (nodup_cons.1 h.nodup).2
  have hx₁₂ : x ∉ l₁ ++ l₂ := (nodup_cons.1 hnodup).1
  have hx₀ : x ≠ 0 := by
    rintro rfl
    exact (nodup_cons.1 h.nodup).1 hx
  have herase : (l₁ ++ x :: l₂).erase x = l₁ ++ l₂ := by
    rw [erase_append_right _ fun hmem => hx₁₂ (mem_append_left _ hmem), erase_cons_head]
  have hxs : x < n := hsize x (by simp)
  have h0s : 0 < n := hsize 0 (by simp)
  have hflip := h.link_flip_eq
  unfold adjust
  rw [get_bind hxs, herase]
  cases hl₁ : l₁.reverse with
  | nil =>
    -- the slot is the first one already
    obtain rfl : l₁ = [] := by simpa using hl₁
    refine ⟨link, ?_, h⟩
    rw [if_neg (by simpa using hflip)]
  | cons a l₁' =>
    rw [hl₁] at hflip
    have hal : a ∈ l₁ := by
      rw [← mem_reverse, hl₁]
      simp
    have ha₀ : link t.flip x ≠ 0 := by
      rw [hflip]
      rintro rfl
      exact (nodup_cons.1 h.nodup).1 (mem_append_left _ hal)
    have has : link t.flip x < n := by
      rw [hflip]
      exact hsize a (by simp [hal])
    have hbs : link t x < n := by
      rw [h.link_eq]
      refine headD_lt fun i hi => hsize i ?_
      simp only [mem_cons, mem_append] at hi ⊢
      tauto
    have hhs : LinkedRing.unlink link t x t 0 < n := by
      rw [h.unlink.link_sentinel]
      refine headD_lt fun i hi => hsize i ?_
      simp only [mem_cons, mem_append] at hi ⊢
      tauto
    have hxl : x ∉ 0 :: (l₁ ++ l₂) := by
      rw [mem_cons, not_or]
      exact ⟨hx₀, hx₁₂⟩
    refine ⟨_, ?_, h.unlink.pushFront hxl⟩
    -- what `adjust` reads between its writes
    have hread : setLink link t.flip (link t x) (link t.flip x) t.flip x = link t.flip x := by
      rw [setLink_same]
      split <;> rfl
    have hread' : setLink link t.flip (link t x) (link t.flip x) t x = link t x :=
      setLink_of_ne _ (Dir.ne_flip t) _ _ _
    have hread₀ : setLink (LinkedRing.unlink link t x) t.flip x 0 t 0 =
        LinkedRing.unlink link t x t 0 := setLink_of_ne _ (Dir.ne_flip t) _ _ _
    rw [if_pos ha₀, get_bind hxs, get_bind hxs, set_bind hbs, get_bind hxs, hread, get_bind hxs,
      hread', set_bind has, set_bind hxs, get_bind h0s, set_bind hxs, get_bind h0s, setLink_same,
      if_neg hx₀.symm]
    change (LinkTable.mk n (setLink (setLink (LinkedRing.unlink link t x) t.flip x 0) t x
      (setLink (LinkedRing.unlink link t x) t.flip x 0 t 0))).set
      (setLink (LinkedRing.unlink link t x) t.flip x 0 t 0) t.flip x >>= _ = _
    rw [hread₀, set_bind hhs, set_eq h0s]
    rfl

end LinkTable

variable {ν : Type}

/-- The value and the expiry of a slot that is alive. -/
def Slot.entry (nd : Slot ν) : Option (Option ν × ℤ) :=
  if 0 < nd.expireAt then some (nd.v, nd.expireAt) else none

/-- The bytes of an entry, as an integer without bounds. -/
def weight [HasLen ν] (key : String) (val : Option ν) : ℤ :=
  key.utf8ByteSize + val.elim 0 fun v => (HasLen.len v : ℤ)

lemma weight_nonneg [HasLen ν] (key : String) (val : Option ν) : 0 ≤ weight key val := by
  cases val with
  | none => simp [weight]
  | some v => simp only [weight, elim_some]; omega

/-- What a slot counts for: nothing if it is dead. -/
def Slot.weight [HasLen ν] (nd : Slot ν) : ℤ :=
  if 0 < nd.expireAt then Caches.weight nd.k nd.v else 0

lemma entryBytes_eq [HasLen ν] (key : String) (val : Option ν) :
    entryBytes key val = int64 (weight key val) := by
  cases val with
  | none => simp [entryBytes, weight]
  | some v => simp [entryBytes, weight, wrap]

namespace Lru

/-- The entry of a key, if there is one and it is alive. -/
def entry (c : Lru ν) (key : String) : Option (Option ν × ℤ) :=
  (c.hashMap.lookup key).bind fun idx => c.m[idx - 1]?.bind Slot.entry

/-- The bytes of all entries that are alive. -/
def liveBytes [HasLen ν] (c : Lru ν) : ℤ := (c.m.map Slot.weight).sum

/-- The field `bytes` is right. -/
def Accounted [HasLen ν] (c : Lru ν) : Prop := c.bytes = int64 c.liveBytes

/-- The number of slots that are alive. -/
def liveCount (c : Lru ν) : ℕ := c.m.countP fun nd => decide (0 < nd.expireAt)

/-- The slots in use are `l`, in the order of the links: every one is the slot of its key. -/
structure Rep (c : Lru ν) (l : List ℕ) : Prop where
  size : c.doubleLink.size = c.m.length + 1
  pos : 0 < c.m.length
  ring : Ring 0 c.doubleLink.link .next l
  mem : ∀ i, i ∈ l ↔ 1 ≤ i ∧ i ≤ c.last
  last : c.last ≤ c.m.length
  lookup : ∀ k i, c.hashMap.lookup k = some i ↔ i ∈ l ∧ ∃ nd, c.m[i - 1]? = some nd ∧ nd.k = k
  unused : ∀ (i : ℕ) nd, c.last ≤ i → c.m[i]? = some nd → nd.expireAt ≤ 0

namespace Rep

variable {c : Lru ν} {l : List ℕ} {i : ℕ} {nd z : Slot ν}

lemma lt_size (h : Rep c l) : ∀ i ∈ 0 :: l, i < c.doubleLink.size := by
  intro i hi
  rw [h.size]
  rcases mem_cons.1 hi with rfl | hi
  · omega
  · have := (h.mem i).1 hi
    have := h.last
    omega

lemma index_lt (h : Rep c l) (hi : i ∈ l) : 1 ≤ i ∧ i - 1 < c.m.length := by
  have := (h.mem i).1 hi
  have := h.last
  omega

lemma exists_slot (h : Rep c l) (hi : i ∈ l) :
    ∃ nd, c.m[i - 1]? = some nd ∧ c.slot i = .ok nd ∧ c.hashMap.lookup nd.k = some i := by
  have hbounds := h.index_lt hi
  obtain ⟨j, rfl⟩ : ∃ j, i = j + 1 := ⟨i - 1, by omega⟩
  have hget : c.m[j]? = some (c.m[j]) := getElem?_eq_getElem (by omega)
  refine ⟨c.m[j], hget, ?_, (h.lookup _ _).2 ⟨hi, _, hget, rfl⟩⟩
  simp only [slot, hget]

section

variable (h : Rep c l) (hi : i ∈ l) (hnd : c.m[i - 1]? = some nd)
include h hi hnd

lemma slot_eq : c.slot i = .ok nd := by
  obtain ⟨z, hnd', hslot, -⟩ := h.exists_slot hi
  rw [hnd, some.injEq] at hnd'
  rw [hslot, hnd']

lemma lookup_iff (k : String) : c.hashMap.lookup k = some i ↔ k = nd.k := by
  rw [h.lookup]
  constructor
  · rintro ⟨-, z, hz, rfl⟩
    rw [hnd, some.injEq] at hz
    rw [hz]
  · rintro rfl
    exact ⟨hi, nd, hnd, rfl⟩

lemma lookup_slot : c.hashMap.lookup nd.k = some i := (h.lookup_iff hi hnd _).2 rfl

lemma entry_slot : c.entry nd.k = nd.entry := by
  unfold entry
  rw [h.lookup_slot hi hnd, bind_some, hnd, bind_some]

lemma entry_live (hlive : 0 < nd.expireAt) : c.entry nd.k = some (nd.v, nd.expireAt) :=
  (h.entry_slot hi hnd).trans (if_pos hlive)

end

/-- The map of the keys after `z` was written to the slot `i`. -/
def Follows (c : Lru ν) (i : ℕ) (z : Slot ν) (H : AList (fun _ : String => ℕ)) : Prop :=
  ∀ k, H.lookup k =
    if k = z.k then some i else if c.hashMap.lookup k = some i then none else c.hashMap.lookup k

variable {H : AList (fun _ : String => ℕ)}

section

variable (h : Rep c l) (hi : 1 ≤ i ∧ i - 1 < c.m.length) (hH : Follows c i z H)
include h hi hH

/-- A slot is written, and the map of the keys follows: every key has its slot again.

**Proof sketch.** By cases on whether an index is the one of the slot. No other slot has its
old or its new key. -/
lemma lookup_write {l' : List ℕ} (hl : ∀ j, j ∈ l' ↔ j = i ∨ j ∈ l)
    (hfree : ∀ j, c.hashMap.lookup z.k = some j → j = i) (k : String) (j : ℕ) :
    H.lookup k = some j ↔ j ∈ l' ∧ ∃ nd, (c.m.set (i - 1) z)[j - 1]? = some nd ∧ nd.k = k := by
  rw [hH k, hl]
  by_cases hji : j = i
  · subst hji
    rw [getElem?_set_self hi.2]
    split
    · rename_i hk
      simp [hk]
    · rename_i hk
      refine iff_of_false ?_ ?_
      · split
        · simp
        · assumption
      · rintro ⟨-, nd, heq, rfl⟩
        cases heq
        exact hk rfl
  · have hother : (j = i ∨ j ∈ l) ∧ (∃ nd, (c.m.set (i - 1) z)[j - 1]? = some nd ∧ nd.k = k) ↔
        c.hashMap.lookup k = some j := by
      rw [or_iff_right hji, h.lookup]
      refine and_congr_right fun hj => ?_
      have := (h.mem j).1 hj
      rw [getElem?_set_ne (by omega)]
    rw [hother]
    split
    · rename_i hk
      subst hk
      exact iff_of_false (by simpa using Ne.symm hji) fun heq => hji (hfree j heq)
    · split
      · rename_i hk
        rw [hk]
        simpa using Ne.symm hji
      · rfl

/-- What happens to the entries when a slot is written. -/
lemma entry_write (k : String) :
    entry { c with hashMap := H, m := c.m.set (i - 1) z } k =
      if k = z.k then z.entry else if c.hashMap.lookup k = some i then none else c.entry k := by
  unfold entry
  rw [hH k]
  split
  · rw [bind_some, getElem?_set_self hi.2, bind_some]
  · split
    · rfl
    · rename_i hk
      cases hlookup : c.hashMap.lookup k with
      | none => rfl
      | some j =>
        have hj := (h.mem j).1 ((h.lookup _ _).1 hlookup).1
        have hne : i - 1 ≠ j - 1 := by
          intro heq
          obtain rfl : j = i := by omega
          exact hk hlookup
        rw [bind_some, bind_some, getElem?_set_ne hne]

end

/-- A slot in use is written. -/
lemma write (h : Rep c l) (hi : i ∈ l) (hH : Follows c i z H)
    (hfree : ∀ j, c.hashMap.lookup z.k = some j → j = i) :
    Rep { c with hashMap := H, m := c.m.set (i - 1) z } l := by
  refine ⟨by simpa using h.size, by simpa using h.pos, h.ring, h.mem, by simpa using h.last,
    h.lookup_write (h.index_lt hi) hH (fun j => ?_) hfree, fun j nd hj hget => ?_⟩
  · rw [or_iff_right_of_imp]
    rintro rfl
    exact hi
  · have := (h.mem i).1 hi
    dsimp only at hj hget
    rw [getElem?_set_ne (show i - 1 ≠ j by omega)] at hget
    exact h.unused j nd hj hget

end Rep

lemma liveBytes_set [HasLen ν] {c : Lru ν} {j : ℕ} {nd : Slot ν} (hnd : c.m[j]? = some nd)
    (z : Slot ν) :
    ((c.m.set j z).map Slot.weight).sum = c.liveBytes - nd.weight + z.weight := by
  obtain ⟨hlen, rfl⟩ := List.getElem?_eq_some_iff.1 hnd
  rw [map_set, sum_set', dif_pos (by simpa using hlen), getElem_map, liveBytes]
  omega

lemma liveCount_set {c : Lru ν} {j : ℕ} {nd z : Slot ν} (hnd : c.m[j]? = some nd)
    (hlive : 0 < nd.expireAt) (hdead : z.expireAt ≤ 0) :
    (c.m.set j z).countP (fun nd => decide (0 < nd.expireAt)) + 1 = c.liveCount := by
  obtain ⟨hlen, rfl⟩ := List.getElem?_eq_some_iff.1 hnd
  have hpos : 0 < c.m.countP (fun nd => decide (0 < nd.expireAt)) :=
    countP_pos_iff.2 ⟨_, getElem_mem hlen, by simpa using hlive⟩
  rw [countP_set hlen, liveCount, if_pos (by simpa using hlive), if_neg (by simpa using hdead)]
  omega

namespace Rep

variable {c : Lru ν} {l : List ℕ} {i : ℕ} {nd z : Slot ν}

lemma relink (h : Rep c l) {l' : List ℕ} {link : Links ℕ} (hring : Ring 0 link .next l')
    (hperm : l'.Perm l) :
    Rep { c with doubleLink := { c.doubleLink with link := link } } l' :=
  { h with
    ring := hring
    mem := fun j => (hperm.mem_iff).trans (h.mem j)
    lookup := fun k j => (h.lookup k j).trans (and_congr_left' hperm.mem_iff.symm) }

lemma adjust_front (h : Rep c l) (hi : i ∈ l) :
    ∃ d, c.adjust i .prev .next = .ok { c with doubleLink := d } ∧
      Rep { c with doubleLink := d } (i :: l.erase i) := by
  obtain ⟨link, hadjust, hring⟩ := LinkTable.adjust_eq h.ring hi h.lt_size
  refine ⟨{ c.doubleLink with link := link }, ?_, ?_⟩
  · change (c.doubleLink.adjust i Dir.next.flip .next >>= _) = _
    rw [hadjust]
    rfl
  · exact h.relink hring (perm_cons_erase hi).symm

lemma adjust_back (h : Rep c l) (hi : i ∈ l) :
    ∃ d, c.adjust i .next .prev = .ok { c with doubleLink := d } ∧
      Rep { c with doubleLink := d } (l.erase i ++ [i]) := by
  have hi' : i ∈ l.reverse := mem_reverse.2 hi
  obtain ⟨link, hadjust, hring⟩ := LinkTable.adjust_eq h.ring.reverse hi' fun j hj =>
    h.lt_size j (by simpa using hj)
  refine ⟨{ c.doubleLink with link := link }, ?_, ?_⟩
  · change (c.doubleLink.adjust i Dir.next.flip.flip Dir.next.flip >>= _) = _
    rw [hadjust]
    rfl
  · have hnodup : l.Nodup := (nodup_cons.1 h.ring.nodup).2
    have hrev := hring.reverse
    rw [reverse_cons, (nodup_reverse.2 hnodup).erase_eq_filter, filter_reverse,
      reverse_reverse, ← hnodup.erase_eq_filter] at hrev
    refine h.relink hrev ?_
    calc (l.erase i ++ [i]).Perm (i :: l.erase i) := perm_append_singleton _ _
      _ |>.Perm l := (perm_cons_erase hi).symm

end Rep

section

variable [HasLen ν]

/-- What an operation makes of a cache: the entries become `f`, their bytes grow by `δ` at most,
and the field `bytes` stays right if `ok` holds. -/
structure Changed (c c' : Lru ν) (f : String → Option (Option ν × ℤ)) (δ : ℤ) (ok : Prop) :
    Prop where
  length : c'.m.length = c.m.length
  entry : ∀ k, c'.entry k = f k
  growth : c'.liveBytes ≤ c.liveBytes + δ
  accounted : ok → Accounted c → Accounted c'

/-- What an operation makes of a cache that keeps its slots in order. -/
structure Update (c c' : Lru ν) (f : String → Option (Option ν × ℤ)) (δ : ℤ) (ok : Prop) : Prop
    extends Changed c c' f δ ok where
  rep : ∃ l, Rep c' l

/-- The bytes of the entry of a key. -/
def entryWeight (c : Lru ν) (key : String) : ℤ :=
  match c.entry key with
  | none => 0
  | some x => weight key x.1

/-- The entry that `put` writes. -/
def written (val : Option ν) (expireAt : ℤ) : Option (Option ν × ℤ) :=
  if 0 < expireAt then some (val, expireAt) else none

variable {c : Lru ν} {l : List ℕ} {i : ℕ} {nd z : Slot ν}

lemma weight_of_live (h : 0 < nd.expireAt) : nd.weight = weight nd.k nd.v := if_pos h

lemma weight_of_dead (h : nd.expireAt ≤ 0) : nd.weight = 0 := if_neg (not_lt.2 h)

lemma Slot.weight_nonneg (nd : Slot ν) : 0 ≤ nd.weight := by
  unfold Slot.weight
  split
  · exact Caches.weight_nonneg _ _
  · exact le_rfl

lemma Slot.weight_le (nd : Slot ν) : nd.weight ≤ Caches.weight nd.k nd.v := by
  unfold Slot.weight
  split
  · exact le_rfl
  · exact Caches.weight_nonneg _ _

/-- Writing a slot adds at most the bytes of what is written. -/
lemma weight_sub_le (nd z : Slot ν) : z.weight - nd.weight ≤ weight z.k z.v := by
  have := Slot.weight_nonneg nd
  have := Slot.weight_le z
  omega

lemma liveBytes_nonneg (c : Lru ν) : 0 ≤ c.liveBytes := by
  refine sum_nonneg fun w hw => ?_
  obtain ⟨nd, -, rfl⟩ := mem_map.1 hw
  exact Slot.weight_nonneg nd

/-- An operation writes `z` to the slot `i`, and the slots in use are then `l'`. The field `bytes`
follows the entries if `ok` holds. -/
structure Placed (c c' : Lru ν) (i : ℕ) (z : Slot ν) (l' : List ℕ) (ok : Prop) : Prop where
  rep : Rep c' l'
  slots : c'.m = c.m.set (i - 1) z
  bytes : ok → c'.bytes = int64 (c.bytes + (c'.liveBytes - c.liveBytes))

variable {ok : Prop} {δ : ℤ} {key : String} {pre rest : List ℕ} {rounds : ℕ}

lemma Placed.liveBytes_eq {c' : Lru ν} (h : Placed c c' i z l ok)
    (hnd : c.m[i - 1]? = some nd) : c'.liveBytes = c.liveBytes - nd.weight + z.weight := by
  rw [liveBytes, h.slots, liveBytes_set hnd]

/-- It is enough to say how `bytes` follows the slot that is written. -/
lemma Rep.placed {c' : Lru ν} (h : Rep c' l) (ok : Prop) (hnd : c.m[i - 1]? = some nd)
    (hslots : c'.m = c.m.set (i - 1) z)
    (hbytes : ok → c'.bytes = int64 (c.bytes - nd.weight + z.weight)) : Placed c c' i z l ok := by
  refine ⟨h, hslots, fun hok => ?_⟩
  have hlive : c'.liveBytes = c.liveBytes - nd.weight + z.weight := by
    rw [liveBytes, hslots, liveBytes_set hnd]
  rw [hbytes hok]
  congr 1
  omega

lemma Placed.update {c' : Lru ν} {f : String → Option (Option ν × ℤ)}
    (h : Placed c c' i z l ok) (hnd : c.m[i - 1]? = some nd) (hentry : ∀ k, c'.entry k = f k)
    (hδ : z.weight - nd.weight ≤ δ) : Update c c' f δ ok := by
  refine ⟨⟨by rw [h.slots, length_set], hentry, ?_, fun hok hacc => ?_⟩, l, h.rep⟩
  · rw [h.liveBytes_eq hnd]
    omega
  · have hacc' : c.bytes = int64 c.liveBytes := hacc
    rw [Accounted, h.bytes hok, hacc', int64_add_left, add_sub_cancel]

/-- The entries after a `put` that has reported `evicted`. -/
def afterPut (c : Lru ν) (key : String) (val : Option ν) (expireAt : ℤ)
    (evicted : List (Evicted ν)) (k : String) : Option (Option ν × ℤ) :=
  if k = key then written val expireAt else if k ∈ evicted.map Prod.fst then none else c.entry k

/-- At most one entry is reported, which is that of another key. -/
def Displaced (c : Lru ν) (key : String) (evicted : List (Evicted ν)) : Prop :=
  evicted = [] ∨ ∃ k x, evicted = [(k, x.1)] ∧ k ≠ key ∧ c.entry k = some x

/-- What `put` makes of a cache: the new entry is in the first slot. -/
structure Stores (c : Lru ν) (l : List ℕ) (key : String) (val : Option ν) (expireAt : ℤ)
    (r : Lru ν × List (Evicted ν)) : Prop where
  update : Update c r.1 (c.afterPut key val expireAt r.2) (weight key val) (0 < expireAt)
  placed : ∃ i, Placed c r.1 i ⟨key, val, expireAt⟩ (i :: l.erase i) (0 < expireAt)
  displaced : Displaced c key r.2

lemma Placed.stores {c' : Lru ν} {val : Option ν} {expireAt : ℤ} {evicted : List (Evicted ν)}
    (h : Placed c c' i ⟨key, val, expireAt⟩ (i :: l.erase i) (0 < expireAt))
    (hnd : c.m[i - 1]? = some nd) (hentry : ∀ k, c'.entry k = c.afterPut key val expireAt evicted k)
    (hdisplaced : Displaced c key evicted) : Stores c l key val expireAt (c', evicted) :=
  ⟨h.update hnd hentry (weight_sub_le _ _), ⟨i, h⟩, hdisplaced⟩

omit [HasLen ν] in
lemma afterPut_nil (val : Option ν) (expireAt : ℤ) (k : String) :
    c.afterPut key val expireAt [] k = if k = key then written val expireAt else c.entry k := by
  simp [afterPut]

omit [HasLen ν] in
lemma afterPut_self (val : Option ν) {expireAt : ℤ} (h : 0 < expireAt)
    (evicted : List (Evicted ν)) :
    c.afterPut key val expireAt evicted key = some (val, expireAt) := by
  rw [afterPut, if_pos rfl, written, if_pos h]

omit [HasLen ν] in
lemma of_afterPut {val : Option ν} {expireAt : ℤ} {evicted : List (Evicted ν)} {k : String}
    {x : Option ν × ℤ} (hk : k ≠ key) (h : c.afterPut key val expireAt evicted k = some x) :
    c.entry k = some x := by
  rw [afterPut, if_neg hk] at h
  split at h
  · cases h
  · exact h

section

variable (h : Rep c l)
include h

omit [HasLen ν] in
/-- A slot is written and keeps its key; `bytes` and `nevict` may change. -/
lemma Rep.setSlot (hi : i ∈ l) (hnd : c.m[i - 1]? = some nd) (hk : z.k = nd.k)
    (b e : ℤ) :
    Rep (Lru.setSlot { c with bytes := b, nevict := e } i z) l ∧
      ∀ k, (Lru.setSlot { c with bytes := b, nevict := e } i z).entry k =
        if k = nd.k then z.entry else c.entry k := by
  have hown := h.lookup_iff hi hnd
  have hH : Rep.Follows c i z c.hashMap := by
    intro k
    split
    · rename_i hz
      rw [hown, hz, hk]
    · rename_i hz
      rw [if_neg fun heq => hz (((hown k).1 heq).trans hk.symm)]
  have hw := h.write hi hH fun j hj => some.inj (hj.symm.trans ((hown _).2 hk))
  refine ⟨{ hw with }, fun k => (h.entry_write (h.index_lt hi) hH k).trans ?_⟩
  simp only [hk, hown]
  split
  · rfl
  · rfl

/-- `put` for a key with a slot. The bytes of the old value go, unless the entry was dead. -/
lemma Rep.overwrite (hlookup : c.hashMap.lookup key = some i)
    (val : Option ν) (expireAt : ℤ) :
    Returns (c.overwrite i key val expireAt) fun c' => Stores c l key val expireAt (c', []) := by
  obtain ⟨hi, nd, hnd, rfl⟩ := (h.lookup _ _).1 hlookup
  unfold Lru.overwrite
  rw [h.slot_eq hi hnd]
  change Returns (Lru.adjust _ _ _ _) _
  generalize hb : (if 0 < nd.expireAt then
    int64 (c.bytes + int64 (entryBytes nd.k val - entryBytes nd.k nd.v))
    else int64 (c.bytes + entryBytes nd.k val)) = b
  obtain ⟨hw, hentry⟩ := h.setSlot (z := { nd with v := val, expireAt := expireAt }) hi hnd rfl
    b c.nevict
  obtain ⟨d, hadjust, hrep⟩ := hw.adjust_front hi
  suffices hplaced : Placed c _ i { nd with v := val, expireAt := expireAt } (i :: l.erase i)
      (0 < expireAt) from
    ⟨_, hadjust, hplaced.stores hnd (fun k => (hentry k).trans (afterPut_nil ..).symm) (.inl rfl)⟩
  refine hrep.placed _ hnd rfl fun hlive => ?_
  have hw' : Slot.weight { nd with v := val, expireAt := expireAt } = weight nd.k val :=
    if_pos hlive
  change b = _
  rw [hw', ← hb]
  simp only [entryBytes_eq]
  split
  · rename_i hnd'
    rw [weight_of_live hnd', int64_sub_left, int64_sub_right, int64_add_right]
    congr 1
    omega
  · rename_i hnd'
    rw [weight_of_dead (not_lt.1 hnd'), int64_add_right, sub_zero]

omit [HasLen ν] in
/-- The tail is a slot in use, if there is one. -/
lemma Rep.tail_mem (hpos : 0 < c.last) : c.doubleLink.link .prev 0 ∈ l := by
  have hhead : c.doubleLink.link .prev 0 = l.reverse.headD 0 := h.ring.reverse.link_sentinel
  rw [hhead, ← mem_reverse]
  cases hl : l.reverse with
  | nil =>
    have h1 : (1 : ℕ) ∈ l := (h.mem 1).2 ⟨le_rfl, hpos⟩
    rw [reverse_eq_nil_iff.1 hl] at h1
    cases h1
  | cons j l' => exact mem_cons_self

omit [HasLen ν] in
/-- A slot in use gets the entry of another key; `bytes` and `nevict` may change. -/
lemma Rep.reuse (hi : i ∈ l) (hnd : c.m[i - 1]? = some nd)
    (hlookup : c.hashMap.lookup z.k = none) (b e : ℤ) :
    let c' := Lru.setSlot { c with
      bytes := b
      nevict := e
      hashMap := (c.hashMap.erase nd.k).insert z.k i } i z
    Rep c' l ∧
      ∀ k, c'.entry k = if k = z.k then z.entry else if k = nd.k then none else c.entry k := by
  have hown := h.lookup_iff hi hnd
  have hH : Rep.Follows c i z ((c.hashMap.erase nd.k).insert z.k i) := by
    intro k
    simp only [hown]
    split_ifs with hk hk'
    · rw [hk, lookup_insert]
    · rw [lookup_insert_ne hk, hk', lookup_erase]
    · rw [lookup_insert_ne hk, lookup_erase_ne hk']
  have hw := h.write hi hH (by simp [hlookup])
  refine ⟨{ hw with }, fun k => (h.entry_write (h.index_lt hi) hH k).trans ?_⟩
  simp only [hown]

/-- What `replaceTail` counts and reports for a tail whose key is another one. -/
lemma Rep.report (hi : i ∈ l) (hnd : c.m[i - 1]? = some nd) (hne : nd.k ≠ key) :
    ∃ b e evicted,
      (if 0 < nd.expireAt then
        ({ c with
            bytes := int64 (c.bytes - entryBytes nd.k nd.v)
            nevict := int64 (c.nevict + 1) }, [(nd.k, nd.v)])
        else (c, [])) = ({ c with bytes := b, nevict := e }, evicted) ∧
      (∀ w, int64 (b + w) = int64 (c.bytes - nd.weight + w)) ∧ Displaced c key evicted ∧
      ∀ k, (if k = nd.k then none else c.entry k) =
        if k ∈ evicted.map Prod.fst then none else c.entry k := by
  by_cases hlive : 0 < nd.expireAt
  · rw [if_pos hlive]
    refine ⟨_, _, _, rfl, fun w => ?_, .inr ⟨nd.k, _, rfl, hne, h.entry_live hi hnd hlive⟩,
      fun k => by simp⟩
    rw [entryBytes_eq, int64_sub_right, int64_add_left, weight_of_live hlive]
  · rw [if_neg hlive]
    refine ⟨_, _, _, rfl, fun w => ?_, .inl rfl, fun k => ?_⟩
    · rw [weight_of_dead (not_lt.1 hlive), sub_zero]
    · simp only [map_nil, not_mem_nil, if_false, ite_eq_right_iff]
      rintro rfl
      exact ((h.entry_slot hi hnd).trans (if_neg hlive)).symm

/-- `put` into a full cache.

**Proof sketch.** The tail is a slot in use with another key. Its entry goes to the caller if it is
alive, and its slot gets the new key and becomes the first one. -/
lemma Rep.replaceTail (hlookup : c.hashMap.lookup key = none)
    (hfull : c.last = c.m.length) (val : Option ν) (expireAt : ℤ) :
    Returns (c.replaceTail key val expireAt) (Stores c l key val expireAt) := by
  have hi := h.tail_mem (hfull ▸ h.pos)
  have h0 : 0 < c.doubleLink.size := h.lt_size 0 (by simp)
  obtain ⟨nd, hnd, hslot, hkey⟩ := h.exists_slot hi
  have hne : nd.k ≠ key := by
    rintro rfl
    rw [hkey] at hlookup
    cases hlookup
  obtain ⟨b, e, evicted, hreport, hbytes, hdisplaced, hevicted⟩ := h.report hi hnd hne
  obtain ⟨hrep, hentry⟩ := h.reuse (z := ⟨key, val, expireAt⟩) hi hnd hlookup
    (int64 (b + entryBytes key val)) e
  obtain ⟨d, hadjust, hrep'⟩ := hrep.adjust_front hi
  have hplaced := hrep'.placed (0 < expireAt) hnd rfl fun hlive => by
    change int64 (b + entryBytes key val) = _
    have hweight : Slot.weight ⟨key, val, expireAt⟩ = weight key val := weight_of_live hlive
    rw [hweight, ← hbytes, entryBytes_eq, int64_add_right]
  unfold Lru.replaceTail
  rw [LinkTable.get_eq h0]
  change Returns (c.slot _ >>= _) _
  rw [hslot]
  change Returns (Except.bind (Except.ok nd) _) _
  dsimp only [Except.bind]
  rw [hreport]
  refine Returns.bind (P := fun j => j = c.doubleLink.link .prev 0) ⟨_, if_pos h0, rfl⟩ ?_
  rintro j rfl
  refine Returns.bind ⟨_, hadjust, Eq.refl _⟩ ?_
  rintro c' rfl
  refine .ok (hplaced.stores hnd (fun k => (hentry k).trans ?_) hdisplaced)
  rw [afterPut, hevicted]
  rfl

omit [HasLen ν] in
/-- The links that `append` writes put the new slot in front. -/
lemma Rep.ring_append :
    Ring 0 (setLink (setLink (setLink (setLink c.doubleLink.link .prev
      (c.doubleLink.link .next 0) (c.last + 1)) .prev (c.last + 1) 0) .next (c.last + 1)
      (c.doubleLink.link .next 0)) .next 0 (c.last + 1)) .next ((c.last + 1) :: l) := by
  have hx : c.last + 1 ∉ 0 :: l := by
    intro hmem
    rcases mem_cons.1 hmem with h0 | hmem
    · omega
    · have := (h.mem _).1 hmem
      omega
  have hhead : c.doubleLink.link .next 0 ≠ c.last + 1 := by
    intro heq
    refine hx ?_
    rw [← heq, h.ring.link_sentinel]
    cases l with
    | nil | cons => simp
  have hflip : Dir.next.flip = Dir.prev := rfl
  refine h.ring.push_of hx ?_ ?_ ?_ ?_ (fun j hj => ?_) fun j hj hmem => ?_
  · simp [setLink_same]
  · simp [setLink_same, setLink_of_ne, hflip]
  · simp [setLink_same]
  · simp [setLink_same, setLink_of_ne, hflip, hhead]
  · have hj₀ : j ≠ 0 := by
      have := (h.mem j).1 hj
      omega
    have hjx : j ≠ c.last + 1 := fun heq => hx (heq ▸ mem_cons_of_mem _ hj)
    simp [setLink_same, setLink_of_ne, hj₀, hjx]
  · have hjx : j ≠ c.last + 1 := fun heq => hx (heq ▸ hmem)
    simp [setLink_same, setLink_of_ne, hflip, hj, hjx]

omit [HasLen ν] in
/-- A slot that was not in use gets an entry. -/
lemma Rep.use (hlookup : c.hashMap.lookup key = none)
    (hroom : c.last < c.m.length) {link : Links ℕ} (hring : Ring 0 link .next ((c.last + 1) :: l))
    (b : ℤ) (hk : z.k = key) :
    let c' : Lru ν := { c with
      doubleLink := { c.doubleLink with link := link }
      m := c.m.set c.last z
      hashMap := c.hashMap.insert key (c.last + 1)
      last := c.last + 1
      bytes := b }
    Rep c' ((c.last + 1) :: l) ∧ ∀ k, c'.entry k = if k = key then z.entry else c.entry k := by
  intro c'
  subst hk
  -- no key has the slot yet
  have hnew : ∀ k, c.hashMap.lookup k ≠ some (c.last + 1) := by
    intro k hk
    have := (h.mem _).1 ((h.lookup _ _).1 hk).1
    omega
  have hH : Rep.Follows c (c.last + 1) z (c.hashMap.insert z.k (c.last + 1)) := by
    intro k
    rw [if_neg (hnew k)]
    split_ifs with hk
    · rw [hk, lookup_insert]
    · rw [lookup_insert_ne hk]
  refine ⟨⟨by simpa [c'] using h.size, by simpa [c'] using h.pos, hring, fun j => ?_,
    by simpa [c', Nat.succ_le_iff] using hroom,
    h.lookup_write ⟨by omega, hroom⟩ hH (fun j => mem_cons) (by simp [hlookup]),
    fun j nd hj hget => ?_⟩,
    fun k => (h.entry_write ⟨by omega, hroom⟩ hH k).trans (by rw [if_neg (hnew k)])⟩
  · rw [mem_cons, h.mem]
    change _ ↔ 1 ≤ j ∧ j ≤ c.last + 1
    omega
  · change c.last + 1 ≤ j at hj
    rw [getElem?_set_ne (by omega)] at hget
    exact h.unused j nd (by omega) hget

/-- `put` into a cache with room.

**Proof sketch.** The next slot is dead and not linked. `linkBack` sets one link of the ring and the
three assignments behind it the others. -/
lemma Rep.append (hlookup : c.hashMap.lookup key = none)
    (hroom : c.last < c.m.length) (val : Option ν) (expireAt : ℤ) :
    Returns (c.append key val expireAt) fun c' => Stores c l key val expireAt (c', []) := by
  obtain ⟨hrep, hentry⟩ := h.use (z := { k := key, v := val, expireAt := expireAt }) hlookup hroom
    h.ring_append (int64 (c.bytes + entryBytes key val)) rfl
  have hx : c.last + 1 < c.doubleLink.size := by
    rw [h.size]
    omega
  have h0 : 0 < c.doubleLink.size := by omega
  have hhead : c.doubleLink.link .next 0 < c.doubleLink.size := by
    rw [h.ring.link_sentinel]
    exact LinkTable.headD_lt h.lt_size
  -- the list is empty if the map is
  have hfirst : c.hashMap.keys = [] → c.doubleLink.link .next 0 = 0 := by
    intro hkeys
    rw [h.ring.link_sentinel]
    cases hl : l with
    | nil => rfl
    | cons j l' =>
      obtain ⟨nd, -, -, hlookup⟩ := h.exists_slot (i := j) (by simp [hl])
      have hmem : nd.k ∈ c.hashMap := lookup_isSome.1 (by rw [hlookup]; rfl)
      rw [AList.mem_keys, hkeys] at hmem
      cases hmem
  have hslot : c.slot (c.last + 1) = .ok (c.m[c.last]) := by
    simp only [slot, getElem?_eq_getElem hroom]
  have hd : c.linkBack (c.last + 1) = .ok { c.doubleLink with
      link := setLink c.doubleLink.link .prev (c.doubleLink.link .next 0) (c.last + 1) } := by
    unfold linkBack
    split_ifs with hkeys
    · rw [hfirst hkeys, LinkTable.set_eq h0]
    · rw [LinkTable.get_eq h0]
      exact LinkTable.set_eq hhead _ _
  unfold Lru.append
  dsimp only
  rw [hd]
  rw [hslot]
  change Returns (LinkTable.get ⟨_, _⟩ _ _ >>= _) _
  rw [LinkTable.get_bind h0, LinkTable.set_bind hx, LinkTable.set_bind hx, LinkTable.set_bind h0]
  have hget : c.m[c.last + 1 - 1]? = some (c.m[c.last]) := getElem?_eq_getElem hroom
  have hplaced := hrep.placed (0 < expireAt) hget rfl fun hlive => by
    have hw : Slot.weight { k := key, v := val, expireAt := expireAt } = weight key val :=
      if_pos hlive
    have hdead := h.unused c.last _ le_rfl (getElem?_eq_getElem hroom)
    rw [weight_of_dead hdead, hw, entryBytes_eq, int64_add_right, sub_zero]
  have hnew : l.erase (c.last + 1) = l := by
    refine erase_of_not_mem fun hmem => ?_
    have := (h.mem _).1 hmem
    omega
  rw [← hnew] at hplaced
  exact .ok (hplaced.stores hget (fun k => (hentry k).trans (afterPut_nil ..).symm) (.inl rfl))

/-- **`put`** writes the entry and makes its slot the first one. -/
lemma Rep.put (key : String) (val : Option ν) (expireAt : ℤ) :
    Returns (c.put key val expireAt) (Stores c l key val expireAt) := by
  unfold Lru.put
  cases hlookup : c.hashMap.lookup key with
  | some i => exact (h.overwrite hlookup val expireAt).bind fun c' hc' => .ok hc'
  | none =>
    split_ifs with hfull
    · exact h.replaceTail hlookup hfull val expireAt
    · have hlt : c.last < c.m.length := lt_of_le_of_ne h.last hfull
      exact (h.append hlookup hlt val expireAt).bind fun c' hc' => .ok hc'

/-! ## Removing entries -/

/-- A slot dies and goes to the end of the list; `z` is what is left of it. -/
lemma Rep.bury (hi : i ∈ l) (hnd : c.m[i - 1]? = some nd) (hlive : 0 < nd.expireAt)
    (hk : z.k = nd.k) (hdead : z.expireAt = 0) (e : ℤ) :
    ∃ c', (Lru.setSlot { c with
        bytes := int64 (c.bytes - entryBytes nd.k nd.v)
        nevict := e } i z).adjust i .next .prev = .ok c' ∧
      Update c c' (fun k => if k = nd.k then none else c.entry k) (-weight nd.k nd.v) True ∧
      c'.liveCount + 1 = c.liveCount ∧ Placed c c' i z (l.erase i ++ [i]) True := by
  obtain ⟨hw, hentry⟩ := h.setSlot hi hnd hk (int64 (c.bytes - entryBytes nd.k nd.v)) e
  obtain ⟨d, hadjust, hrep⟩ := hw.adjust_back hi
  have hnone : z.entry = none := if_neg (by omega)
  have hz : z.weight = 0 := weight_of_dead (le_of_eq hdead)
  have hplaced := hrep.placed True hnd rfl fun _ => by
    rw [weight_of_live hlive, hz, add_zero]
    change int64 (c.bytes - entryBytes nd.k nd.v) = _
    rw [entryBytes_eq, int64_sub_right]
  refine ⟨_, hadjust, hplaced.update hnd (fun k => ?_) ?_,
    liveCount_set hnd hlive (le_of_eq hdead), hplaced⟩
  · refine (hentry k).trans ?_
    rw [hnone]
  · rw [weight_of_live hlive]
    omega

end

/-- The slot `i`, which has the entry `nd`, has died and gone to the end. -/
structure Buried (c c' : Lru ν) (l : List ℕ) (i : ℕ) (nd : Slot ν) : Prop where
  mem : i ∈ l
  slot : c.m[i - 1]? = some nd
  live : 0 < nd.expireAt
  placed : ∃ z, Placed c c' i z (l.erase i ++ [i]) True ∧ z.k = nd.k ∧ z.expireAt = 0

/-- What is left in a slot that has died can be overwritten, as a dead slot counts for nothing. -/
lemma Placed.rewrite {c' : Lru ν} (h : Placed c c' i z l True) (z' : Slot ν) (hi : i ∈ l)
    (hnd : c.m[i - 1]? = some nd) (hdead : z.expireAt = 0) (hk : z'.k = z.k)
    (hdead' : z'.expireAt = 0) :
    Placed c (c'.setSlot i z') i z' l True ∧ ∀ k, (c'.setSlot i z').entry k = c'.entry k := by
  have hlen : i - 1 < c.m.length := (List.getElem?_eq_some_iff.1 hnd).1
  have hz : c'.m[i - 1]? = some z := by rw [h.slots, getElem?_set_self hlen]
  obtain ⟨hrep, hentry⟩ := h.rep.setSlot hi hz hk c'.bytes c'.nevict
  refine ⟨Rep.placed hrep _ hnd ?_ fun _ => ?_, fun k => ?_⟩
  · rw [Lru.setSlot, h.slots, set_set]
  · have hbytes := h.bytes trivial
    rw [h.liveBytes_eq hnd, weight_of_dead (le_of_eq hdead)] at hbytes
    change c'.bytes = _
    rw [hbytes, weight_of_dead (le_of_eq hdead')]
    congr 1
    omega
  · refine (hentry k).trans ?_
    split_ifs with hkz
    · rw [hkz, h.rep.entry_slot hi hz, Slot.entry, if_neg (by omega), Slot.entry, if_neg (by omega)]
    · rfl

omit [HasLen ν] in
lemma Rep.entry_some (h : Rep c l) {x : Option ν × ℤ} (hx : c.entry key = some x) :
    ∃ i nd, i ∈ l ∧ c.m[i - 1]? = some nd ∧ nd.k = key ∧ 0 < nd.expireAt ∧
      x = (nd.v, nd.expireAt) := by
  unfold entry at hx
  rw [bind_eq_some_iff] at hx
  obtain ⟨i, hlookup, hx⟩ := hx
  obtain ⟨hi, nd, hnd, hk⟩ := (h.lookup _ _).1 hlookup
  rw [hnd, bind_some, Slot.entry] at hx
  split at hx
  · rename_i hlive
    cases hx
    exact ⟨i, nd, hi, hnd, hk, hlive, rfl⟩
  · cases hx

/-- `del` followed by `nd.v = nil`: the entry of the key is found and removed. -/
lemma Rep.del (h : Rep c l) (key : String) :
    Returns (c.del key) fun r =>
      r.2.map (fun x => (x.2.v, x.2.expireAt)) = c.entry key ∧
      Update c (r.1.forget r.2) (fun k => if k = key then none else c.entry k)
        (-c.entryWeight key) True ∧
      (r.2 = none → r.1 = c) ∧
      ∀ x, r.2 = some x → x.2.k = key ∧ Buried c r.1 l x.1 x.2 ∧
        Buried c (r.1.forget r.2) l x.1 x.2 := by
  -- without an entry nothing is done
  have hkept : c.entry key = none → Update c c (fun k => if k = key then none else c.entry k)
      (-c.entryWeight key) True := by
    intro hnone
    refine ⟨⟨rfl, fun k => ?_, by simp [entryWeight, hnone], fun _ hacc => hacc⟩, l, h⟩
    split_ifs with hk
    · rw [hk, hnone]
    · rfl
  unfold Lru.del
  cases hlookup : c.hashMap.lookup key with
  | none =>
    have hnone : c.entry key = none := by simp [entry, hlookup]
    exact .ok ⟨hnone.symm, hkept hnone, fun _ => rfl, fun x hx => nomatch hx⟩
  | some i =>
    obtain ⟨hi, nd, hnd, rfl⟩ := (h.lookup _ _).1 hlookup
    have hentry := h.entry_slot hi hnd
    change Returns (c.slot i >>= _) _
    rw [h.slot_eq hi hnd]
    change Returns (if 0 < nd.expireAt then _ else _) _
    split_ifs with hlive
    · obtain ⟨c', hkill, hupdate, -, hplaced⟩ :=
        h.bury (z := { nd with expireAt := 0 }) hi hnd hlive rfl rfl c.nevict
      have hkill' : c.kill i nd = .ok c' := hkill
      rw [hkill']
      obtain ⟨hplaced', hsame⟩ := hplaced.rewrite { nd with expireAt := 0, v := none }
        (by simp) hnd rfl rfl rfl
      have hfound := h.entry_live hi hnd hlive
      refine .ok ⟨hfound.symm, hplaced'.update hnd (fun k => ?_) ?_, ?_, fun x hx => ?_⟩
      · exact (hsame k).trans (hupdate.entry k)
      · rw [weight_of_live hlive, weight_of_dead le_rfl, entryWeight, hfound, zero_sub]
      · intro hx
        cases hx
      · cases hx
        exact ⟨rfl, ⟨hi, hnd, hlive, _, hplaced, rfl, rfl⟩, hi, hnd, hlive, _, hplaced', rfl, rfl⟩
    · have hnone : c.entry nd.k = none := hentry.trans (if_neg hlive)
      exact .ok ⟨hnone.symm, hkept hnone, fun _ => rfl, fun x hx => nomatch hx⟩

omit [HasLen ν] in
lemma Rep.length_le (h : Rep c l) : l.length ≤ c.m.length := by
  have hsub : l ⊆ range' 1 c.last := by
    intro j hj
    have := (h.mem j).1 hj
    rw [mem_range'_1]
    omega
  have hle := (subperm_of_subset (nodup_cons.1 h.ring.nodup).2 hsub).length_le
  rw [length_range'] at hle
  exact hle.trans h.last

omit [HasLen ν] in
/-- The slots of a list are dead. -/
def Dead (c : Lru ν) (l : List ℕ) : Prop := ∀ i ∈ l, ∀ nd, c.m[i - 1]? = some nd → nd.expireAt ≤ 0

/-- `evictOldest` has buried the last slot that was alive. -/
structure EvictedLast (c c' : Lru ν) (l : List ℕ) (nd : Slot ν) : Prop where
  update : Update c c' (fun k => if k = nd.k then none else c.entry k) 0 True
  count : c'.liveCount + 1 = c.liveCount
  buried : ∃ l₁ i l₂, l = l₁ ++ i :: l₂ ∧ Dead c l₂ ∧ Buried c c' l i nd

/-- The loop of `evictOldest` over the slots `rest` that are left of the list in reverse: it
buries the first one that is alive. -/
lemma Rep.evictFrom (h : Rep c l) (hl : l.reverse = pre ++ rest)
    (hpre : Dead c pre) (hrounds : rest.length ≤ rounds) :
    Returns (c.evictFrom (rounds + 1) (rest.headD 0)) fun r =>
      (r = (c, false, []) ∧ Dead c l) ∨
      ∃ nd, c.entry nd.k = some (nd.v, nd.expireAt) ∧ r.2 = (true, [(nd.k, nd.v)]) ∧
        EvictedLast c r.1 l nd := by
  induction rest generalizing pre rounds with
  | nil =>
    refine .ok (.inl ⟨rfl, fun i hi => hpre i ?_⟩)
    rwa [← mem_reverse, hl, append_nil] at hi
  | cons j rest ih =>
    obtain ⟨rounds, rfl⟩ := Nat.exists_eq_add_one.2 (Nat.zero_lt_of_lt hrounds)
    have hj : j ∈ l := by
      rw [← mem_reverse, hl]
      simp
    obtain ⟨j', rfl⟩ := Nat.exists_eq_add_one.2 ((h.mem j).1 hj).1
    obtain ⟨nd, hnd, hslot, -⟩ := h.exists_slot hj
    have hring := h.ring.reverse
    rw [hl] at hring
    have hnext : c.doubleLink.link .prev (j' + 1) = rest.headD 0 := hring.link_eq
    change Returns (c.slot (j' + 1) >>= _) _
    rw [hslot]
    change Returns (if nd.expireAt ≤ 0 then _ else _) _
    split_ifs with hdead
    · change Returns (c.doubleLink.get (j' + 1) .prev >>= _) _
      rw [LinkTable.get_eq (h.lt_size _ (mem_cons_of_mem _ hj)), hnext]
      refine ih (show l.reverse = (pre ++ [j' + 1]) ++ rest by rw [hl, append_cons])
        (fun i hi z hz => ?_) (by simpa using hrounds)
      rcases mem_append.1 hi with hi | hi
      · exact hpre i hi z hz
      · rw [mem_singleton.1 hi, hnd, some.injEq] at hz
        rw [← hz]
        exact hdead
    · have hlive' : 0 < nd.expireAt := not_le.1 hdead
      obtain ⟨c', hbury, hupdate, hcount, hplaced⟩ :=
        h.bury (z := { nd with expireAt := 0, v := none }) hj hnd hlive' rfl rfl
          (int64 (c.nevict + 1))
      refine Returns.bind ⟨c', hbury, Eq.refl c'⟩ ?_
      rintro c'' rfl
      have hupdate' : Update c c' (fun k' => if k' = nd.k then none else c.entry k') 0 True :=
        { hupdate with
          growth := hupdate.growth.trans (by have := weight_nonneg nd.k nd.v; omega) }
      have hsplit : l = rest.reverse ++ (j' + 1) :: pre.reverse := by
        rw [← reverse_reverse l, hl]
        simp
      have hburied : Buried c c' l (j' + 1) nd := ⟨hj, hnd, hlive', _, hplaced, rfl, rfl⟩
      exact .ok (.inr ⟨nd, h.entry_live hj hnd hlive', rfl, hupdate', hcount,
        rest.reverse, j' + 1, pre.reverse, hsplit, fun i hi => hpre i (mem_reverse.1 hi),
        hburied⟩)

/-- No slot is alive. -/
def Barren (c : Lru ν) : Prop := c.liveBytes = 0 ∧ ∀ k, c.entry k = none

/-- **`evictOldest`** removes an entry, and fails only if there is none. -/
lemma Rep.evictOldest (h : Rep c l) :
    Returns c.evictOldest fun r =>
      (r = (c, false, []) ∧ Barren c) ∨
      ∃ nd, c.entry nd.k = some (nd.v, nd.expireAt) ∧ r.2 = (true, [(nd.k, nd.v)]) ∧
        EvictedLast c r.1 l nd := by
  have h0 : 0 < c.doubleLink.size := h.lt_size 0 (by simp)
  have hhead : c.doubleLink.link .prev 0 = l.reverse.headD 0 := h.ring.reverse.link_sentinel
  unfold Lru.evictOldest
  rw [LinkTable.get_eq h0, hhead]
  refine (h.evictFrom (show l.reverse = [] ++ l.reverse from rfl) (by simp [Dead])
    (by simpa using h.length_le)).mono fun r hr => ?_
  rcases hr with ⟨heq, hall⟩ | hfound
  · -- every slot is dead: those of the list, and those that were never used
    refine .inl ⟨heq, ?_, fun k => ?_⟩
    · refine sum_eq_zero fun w hw => ?_
      obtain ⟨nd, hnd, rfl⟩ := mem_map.1 hw
      obtain ⟨j, hj⟩ := getElem?_of_mem hnd
      refine weight_of_dead ?_
      rcases Nat.lt_or_ge j c.last with hlt | hge
      · exact hall (j + 1) ((h.mem _).2 ⟨by omega, by omega⟩) nd hj
      · exact h.unused j nd hge hj
    · cases hk : c.entry k with
      | none => rfl
      | some x =>
        obtain ⟨i, nd, hi, hnd, -, hlive, -⟩ := h.entry_some hk
        have := hall i hi nd hnd
        omega
  · exact .inr hfound

omit [HasLen ν] in
/-- The slots that the loop visits from `rest` on, by induction on `rest`, the end of the ring. -/
lemma Rep.walkFrom (h : Rep c l) (hl : l = pre ++ rest)
    (hrounds : rest.length ≤ rounds) :
    Returns (c.walkFrom (rounds + 1) (rest.headD 0)) fun slots =>
      ∀ nd, nd ∈ slots ↔ 0 < nd.expireAt ∧ ∃ i ∈ rest, c.m[i - 1]? = some nd := by
  induction rest generalizing pre rounds with
  | nil => exact .ok (by simp)
  | cons j rest ih =>
    obtain ⟨rounds, rfl⟩ := Nat.exists_eq_add_one.2 (Nat.zero_lt_of_lt hrounds)
    have hj : j ∈ l := by simp [hl]
    obtain ⟨j', rfl⟩ := Nat.exists_eq_add_one.2 ((h.mem j).1 hj).1
    obtain ⟨nd, hnd, hslot, -⟩ := h.exists_slot hj
    have hring := h.ring
    rw [hl] at hring
    change Returns (c.slot (j' + 1) >>= _) _
    rw [hslot]
    change Returns (c.doubleLink.get (j' + 1) .next >>= _) _
    rw [LinkTable.get_eq (h.lt_size _ (mem_cons_of_mem _ hj)), hring.link_eq]
    refine (ih (show l = (pre ++ [j' + 1]) ++ rest by rw [hl, append_cons])
      (by simpa using hrounds)).bind fun slots hslots => .ok fun z => ?_
    have hfirst : (∃ i ∈ (j' + 1) :: rest, c.m[i - 1]? = some z) ↔
        z = nd ∨ ∃ i ∈ rest, c.m[i - 1]? = some z := by
      simp only [mem_cons, exists_eq_or_imp]
      rw [hnd, some.injEq, eq_comm]
    rw [hfirst]
    split
    · rename_i hlive
      rw [mem_cons, hslots]
      constructor
      · rintro (rfl | ⟨hlive', hex⟩)
        · exact ⟨hlive, .inl rfl⟩
        · exact ⟨hlive', .inr hex⟩
      · rintro ⟨hlive', rfl | hex⟩
        · exact .inl rfl
        · exact .inr ⟨hlive', hex⟩
    · rename_i hdead
      rw [hslots]
      refine and_congr_right fun hlive => ?_
      rw [or_iff_right]
      rintro rfl
      exact hdead hlive

omit [HasLen ν] in
/-- **`walk`** visits exactly the entries that are alive. -/
lemma Rep.walk (h : Rep c l) :
    Returns c.walk fun slots =>
      (∀ nd ∈ slots, c.entry nd.k = some (nd.v, nd.expireAt)) ∧
      ∀ k x, c.entry k = some x → ∃ nd ∈ slots, nd.k = k ∧ x = (nd.v, nd.expireAt) := by
  have h0 : 0 < c.doubleLink.size := h.lt_size 0 (by simp)
  unfold Lru.walk
  rw [LinkTable.get_eq h0, h.ring.link_sentinel]
  refine (h.walkFrom (show l = [] ++ l from rfl) h.length_le).mono fun slots hslots =>
    ⟨fun nd hnd => ?_, fun k x hx => ?_⟩
  · obtain ⟨hlive, i, hi, hget⟩ := (hslots nd).1 hnd
    exact h.entry_live hi hget hlive
  · obtain ⟨i, nd, hi, hget, hk, hlive, hx⟩ := h.entry_some hx
    exact ⟨nd, (hslots nd).2 ⟨hlive, i, hi, hget⟩, hk, hx⟩

/-! ## All caches

A cache with 65535 slots has no links. Nothing can be put into it, and the operations that
read a link stop. The following statements cover it: it stays empty. -/

omit [HasLen ν] in
/-- A cache with `n` links: its slots are in order, or there are no links and no keys. -/
structure Sound (n : ℕ) (c : Lru ν) : Prop where
  size : c.doubleLink.size = n
  rep : n ≠ 0 → ∃ l, Rep c l
  empty : n = 0 → c.hashMap = ∅

/-- What an operation makes of a cache with `n` links. -/
structure Became (n : ℕ) (c c' : Lru ν) (f : String → Option (Option ν × ℤ)) (δ : ℤ)
    (ok : Prop) : Prop extends Changed c c' f δ ok where
  sound : Sound n c'

variable {n : ℕ}

lemma Update.became {c' : Lru ν} {f : String → Option (Option ν × ℤ)}
    (h : Update c c' f δ ok) (hrep : Rep c l) (hc : Sound n c) : Became n c c' f δ ok := by
  obtain ⟨l', hrep'⟩ := h.rep
  refine ⟨h.toChanged, ?_, fun _ => h.rep, fun hn => ?_⟩
  · rw [hrep'.size, h.length, ← hrep.size, hc.size]
  · have := hrep.size
    rw [hc.size] at this
    omega

section

variable (h : Sound n c)
include h

omit [HasLen ν] in
lemma Sound.entry_of_no_links (hn : n = 0) (key : String) : c.entry key = none := by
  simp [entry, h.empty hn]

lemma Sound.unchanged {f : String → Option (Option ν × ℤ)}
    (hf : ∀ k, c.entry k = f k) (hδ : 0 ≤ δ) (ok : Prop) : Became n c c f δ ok :=
  ⟨⟨rfl, hf, by omega, fun _ hacc => hacc⟩, h⟩

/-- Without links `put` stops: each of its branches accesses one. -/
lemma Sound.put (key : String) (val : Option ν) (expireAt : ℤ) :
    Guarded (n ≠ 0) (c.put key val expireAt) fun r =>
      Became n c r.1 (c.afterPut key val expireAt r.2) (weight key val) (0 < expireAt) ∧
        Displaced c key r.2 := by
  by_cases hn : n = 0
  · -- the first access to the links stops
    have hsize : ¬ 0 < c.doubleLink.size := by
      rw [h.size]
      omega
    have hlookup : c.hashMap.lookup key = none := by
      rw [h.empty hn]
      exact lookup_empty key
    have hkeys : c.hashMap.keys = [] := by
      rw [h.empty hn]
      rfl
    unfold Lru.put
    rw [hlookup]
    dsimp only
    split
    · unfold Lru.replaceTail LinkTable.get
      rw [if_neg hsize]
      exact Guarded.error _ (not_not.2 hn)
    · have hback : c.linkBack (c.last + 1) = .error .indexOutOfRange := by
        unfold linkBack LinkTable.set
        rw [if_pos hkeys, if_neg hsize]
      unfold Lru.append
      dsimp only
      rw [hback]
      exact Guarded.error _ (not_not.2 hn)
  · obtain ⟨l, hrep⟩ := h.rep hn
    exact (Guarded.of_returns (hrep.put key val expireAt)).mono fun r hr =>
      ⟨hr.update.became hrep h, hr.displaced⟩

lemma Sound.del (key : String) :
    Guarded (n ≠ 0) (c.del key) fun r =>
      r.2.map (fun x => (x.2.v, x.2.expireAt)) = c.entry key ∧
      Became n c (r.1.forget r.2) (fun k => if k = key then none else c.entry k)
        (-c.entryWeight key) True := by
  by_cases hn : n = 0
  · have hnone := h.entry_of_no_links hn
    have hdel : c.del key = .ok (c, none) := by
      unfold Lru.del
      rw [h.empty hn, lookup_empty]
    rw [hdel]
    refine Guarded.ok ⟨(hnone key).symm, h.unchanged (fun k => ?_) ?_ _⟩
    · simp [hnone]
    · simp [entryWeight, hnone]
  · obtain ⟨l, hrep⟩ := h.rep hn
    exact (Guarded.of_returns (hrep.del key)).mono fun r hr => ⟨hr.1, hr.2.1.became hrep h⟩

lemma Sound.drop (key : String) :
    Guarded (n ≠ 0) (c.drop key) fun c' =>
      Became n c c' (fun k => if k = key then none else c.entry k) (-c.entryWeight key) True :=
  (h.del key).bind fun _ hr => Guarded.ok hr.2

omit [HasLen ν] in
/-- A cache that has a key has links. -/
lemma Sound.rep_of_lookup (hlookup : c.hashMap.lookup key = some i) : ∃ l, Rep c l := by
  refine h.rep fun hn => ?_
  rw [h.empty hn] at hlookup
  cases hlookup

omit [HasLen ν] in
lemma Sound.peek (key : String) :
    Guarded (n ≠ 0) (c.peek key) fun r =>
      r.bind (fun x => x.1.entry) = c.entry key ∧
      ∀ nd idx, r = some (nd, idx) → c.hashMap.lookup key = some idx := by
  unfold Lru.peek
  cases hlookup : c.hashMap.lookup key with
  | none =>
    refine Guarded.ok ⟨by simp [entry, hlookup], fun nd idx h => ?_⟩
    cases h
  | some i =>
    obtain ⟨l, hrep⟩ := h.rep_of_lookup hlookup
    obtain ⟨hi, nd, hnd, rfl⟩ := (hrep.lookup _ _).1 hlookup
    change Guarded _ (c.slot i >>= _) _
    rw [hrep.slot_eq hi hnd]
    refine Guarded.ok ⟨(hrep.entry_slot hi hnd).symm, fun z idx heq => ?_⟩
    cases heq
    rfl

/-- Moving the slot of a key to the front changes no entry. -/
lemma Sound.touch (hlookup : c.hashMap.lookup key = some i) :
    Guarded (n ≠ 0) (c.adjust i .prev .next) fun c' => Became n c c' c.entry 0 True := by
  obtain ⟨l, hrep⟩ := h.rep_of_lookup hlookup
  obtain ⟨d, hadjust, hrep'⟩ := hrep.adjust_front ((hrep.lookup _ _).1 hlookup).1
  rw [hadjust]
  exact Guarded.ok (Update.became
    ⟨⟨rfl, fun _ => rfl, (add_zero _).ge, fun _ hacc => hacc⟩, _, hrep'⟩ hrep h)

lemma Sound.evictOldest :
    Guarded (n ≠ 0) c.evictOldest fun r =>
      (r = (c, false, []) ∧ Barren c) ∨
      ∃ k x, c.entry k = some x ∧ r.2 = (true, [(k, x.1)]) ∧
        Became n c r.1 (fun k' => if k' = k then none else c.entry k') 0 True ∧
        r.1.liveCount + 1 = c.liveCount := by
  by_cases hn : n = 0
  · unfold Lru.evictOldest LinkTable.get
    rw [if_neg (by rw [h.size]; omega)]
    exact Guarded.error _ (not_not.2 hn)
  · obtain ⟨l, hrep⟩ := h.rep hn
    refine (Guarded.of_returns hrep.evictOldest).mono fun r hr => ?_
    rcases hr with hr | ⟨nd, hx, hr, hlast⟩
    · exact .inl hr
    · exact .inr ⟨nd.k, _, hx, hr, hlast.update.became hrep h, hlast.count⟩

omit [HasLen ν] in
lemma Sound.walk :
    Guarded (n ≠ 0) c.walk fun slots =>
      (∀ nd ∈ slots, c.entry nd.k = some (nd.v, nd.expireAt)) ∧
      ∀ k x, c.entry k = some x → ∃ nd ∈ slots, nd.k = k ∧ x = (nd.v, nd.expireAt) := by
  by_cases hn : n = 0
  · unfold Lru.walk LinkTable.get
    rw [if_neg (by rw [h.size]; omega)]
    exact Guarded.error _ (not_not.2 hn)
  · obtain ⟨l, hrep⟩ := h.rep hn
    exact Guarded.of_returns hrep.walk

end

omit [HasLen ν] in
/-- A new cache: it has as many links as slots and one more, in `uint16`. -/
lemma sound_create (ν : Type) {cap : UInt16} (hpos : cap ≠ 0) :
    Sound (cap + 1).toNat (create ν cap) := by
  have hpos' : 0 < cap.toNat := by
    rw [Nat.pos_iff_ne_zero]
    exact fun h => hpos (UInt16.toNat_inj.1 h)
  refine ⟨rfl, fun hn => ⟨[], ?_⟩, fun _ => rfl⟩
  refine ⟨?_, by simpa [create] using hpos', ⟨by simp, ?_⟩, fun i => ?_, Nat.zero_le _,
    fun k i => ?_, fun i nd _ hget => ?_⟩
  · have hlt := cap.toNat_lt
    simp only [create, length_replicate, UInt16.toNat_add, UInt16.toNat_one] at hn ⊢
    omega
  · exact isChain_pair.2 ⟨rfl, rfl⟩
  · change i ∈ [] ↔ 1 ≤ i ∧ i ≤ 0
    simp
    omega
  · simp [create]
  · have hmem := mem_of_getElem? hget
    rw [create, mem_replicate] at hmem
    rw [hmem.2]

lemma create_liveBytes (cap : UInt16) : (create ν cap).liveBytes = 0 := by
  refine sum_eq_zero fun w hw => ?_
  obtain ⟨nd, hnd, rfl⟩ := mem_map.1 hw
  rw [create, mem_replicate] at hnd
  rw [hnd.2]
  rfl

lemma create_accounted (cap : UInt16) : Accounted (create ν cap) := by
  unfold Accounted
  rw [create_liveBytes]
  rfl

end

end Lru

end Yukino.Caches
