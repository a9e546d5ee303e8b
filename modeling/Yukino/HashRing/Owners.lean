import Yukino.Lib.Outcome
import Yukino.HashRing.ConsistentHash

set_option autoImplicit false

/-!
# Owners on the hash ring, and a replica that comes

The owner of a data key is the node of the first virtual node on the way from the score of the
key.

## Main definitions

* `SkiplistHashRing.owner` — the node that `GetNode` returns for a score.
* `SkiplistHashRing.Heir` — the node that owns a score once `n` is gone.
* `ConsistentHash.OnRing` — which virtual nodes the ring has.
* `ConsistentHash.Settled` — every record of a data key is with the owner.

## Main results

* `getNodeID_getRawNodeKey` — the id of a node is read off its raw keys.
* `migratesIn_iff`, `migratesOut_iff` — the shifted comparisons of
  the two migrations are one test on the circle.
* `ConsistentHash.Settled.addReplica` — one replica comes.
-/

namespace Yukino.HashRing

open MachineInt SkiplistHashRing RingWalk Outcome List Bool

/-! ## Names of virtual nodes -/

section Names

variable {m n : String} {i j : ℕ}

lemma toList_getRawNodeKey (n : String) (i : ℕ) :
    (getRawNodeKey n i).toList = n.toList ++ '_' :: Nat.toDigits 10 i := by
  simp [getRawNodeKey]

/-- The id is what stands before the last underscore, since an index has none. -/
@[simp] lemma getNodeID_getRawNodeKey (n : String) (i : ℕ) : getNodeID (getRawNodeKey n i) = n := by
  have hdigits : ∀ a ∈ (Nat.toDigits 10 i).reverse, decide (a ≠ '_') = true := by
    intro a ha
    rw [decide_eq_true_eq]
    rintro rfl
    exact Nat.underscore_not_in_toDigits (mem_reverse.1 ha)
  unfold getNodeID
  rw [toList_getRawNodeKey, reverse_append, reverse_cons,
    append_assoc, dropWhile_append_of_pos hdigits]
  simp

lemma getRawNodeKey_inj (h : getRawNodeKey m i = getRawNodeKey n j) : m = n ∧ i = j := by
  have hm : m = n := by simpa using congrArg getNodeID h
  subst hm
  have hlist := congrArg String.toList h
  rw [toList_getRawNodeKey, toList_getRawNodeKey, append_cancel_left_eq, cons.injEq] at hlist
  have hof := congrArg (Nat.ofDigitChars 10 · 0) hlist.2
  simpa [Nat.ofDigitChars_toDigits] using hof

lemma getRawNodeKey_ne (n : String) (i : ℕ) : getRawNodeKey n i ≠ n := by
  intro h
  have hlen := congrArg (fun s => s.toList.length) h
  simp [toList_getRawNodeKey] at hlen

end Names

/-! ## The arithmetic of the migrations -/

section Arithmetic

variable {v l x d : ℤ}

lemma incrScore_eq (hv : OnCircle maxInt32 v) : incrScore v = next maxInt32 v := by
  unfold incrScore RingWalk.next
  unfold OnCircle maxInt32 at *
  split_ifs with h
  · rfl
  · exact int32_eq (by omega) (by omega)

lemma decreaseScore_eq (hv : OnCircle maxInt32 v) : decreaseScore v = prev maxInt32 v := by
  unfold decreaseScore RingWalk.prev
  unfold OnCircle maxInt32 at *
  split_ifs with h
  · rfl
  · exact int32_eq (by omega) (by omega)

lemma int32_sub_maxInt32 (h : -1 ≤ v) (h' : v < maxInt32) :
    int32 (v - maxInt32) = v - maxInt32 := by
  unfold maxInt32 at *
  exact int32_eq (by omega) (by omega)

/-- `migrateOut` takes the keys between the score behind and the score that goes. -/
lemma migratesOut_iff (hl : OnCircle maxInt32 l) (hv : OnCircle maxInt32 v)
    (hd : OnCircle maxInt32 d) :
    ConsistentHash.migratesOut l v d = true ↔ clockwise maxInt32 d v < clockwise maxInt32 l v := by
  obtain ⟨hl0, hlm⟩ := hl
  obtain ⟨hv0, hvm⟩ := hv
  obtain ⟨hd0, hdm⟩ := hd
  have hdsub := int32_sub_maxInt32 (v := d) (by omega) hdm
  have hlsub := int32_sub_maxInt32 (v := l) (by omega) hlm
  have hladd : int32 (l - maxInt32 + maxInt32) = l := by
    rw [sub_add_cancel]
    exact int32_eq (by omega) (by unfold maxInt32 at hlm; omega)
  unfold ConsistentHash.migratesOut clockwise
  by_cases hp : l > v
  · by_cases hdl : d > l
    · simp only [hp, hlsub, hladd, hdl, decide_true, if_true, Bool.and_self,
        not_eq_true', or_eq_false_iff, decide_eq_false_iff_not]
      split_ifs <;> omega
    · simp only [hp, hlsub, hladd, hdl, decide_true, decide_false, if_true, Bool.and_false,
        false_eq_true, if_false, not_eq_true', or_eq_false_iff,
        decide_eq_false_iff_not]
      split_ifs <;> omega
  · simp only [hp, decide_false, Bool.false_eq_true, if_false, Bool.false_and,
      not_eq_true', or_eq_false_iff, decide_eq_false_iff_not]
    split_ifs <;> omega

/-- `migrateIn` takes the keys between the score behind and the new score, whichever of them the
end of the circle separates. -/
lemma migratesIn_iff (hl : OnCircle maxInt32 l) (hv : OnCircle maxInt32 v)
    (hd : OnCircle maxInt32 d) (hlx : x < v → l < v) :
    ConsistentHash.migratesIn l v x d = true ↔
      clockwise maxInt32 d v < clockwise maxInt32 l v := by
  by_cases hx : x < v
  · -- the next score is past the end: all three scores are shifted
    have hlv := hlx hx
    have hdsub := int32_sub_maxInt32 (v := d) (by have := hd.1; omega) hd.2
    have hlsub := int32_sub_maxInt32 (v := l) (by have := hl.1; omega) hl.2
    have hvsub := int32_sub_maxInt32 (v := v) (by have := hv.1; omega) hv.2
    unfold ConsistentHash.migratesIn clockwise
    unfold OnCircle at *
    simp only [not_lt_of_gt hlv, decide_false,
      Bool.false_eq_true, if_false, Bool.false_and, Bool.not_eq_true',
      or_eq_false_iff, decide_eq_false_iff_not]
    split_ifs <;> omega
  · rw [← migratesOut_iff hl hv hd]
    unfold ConsistentHash.migratesIn ConsistentHash.migratesOut
    simp only [hx, decide_false, Bool.false_eq_true, if_false]

end Arithmetic

/-! ## Owners and heirs -/

namespace SkiplistHashRing

variable (s : SkiplistHashRing) (n : String) (d v : ℤ) (m : String)

/-- The nodes at a score, in the order of their virtual nodes. -/
def nodesAt : List String :=
  (s.ids v).map getNodeID

/-- The node that owns a score. -/
def owner : Option String :=
  (s.nodesAt (s.ceiling d)).head?

/-- The first node at a score that is not `n`. -/
def firstOther : Option String :=
  (s.nodesAt v).find? (· ≠ n)

/-- The scores at which some node is not `n`. -/
def Others : Set ℤ :=
  {v | (s.firstOther n v).isSome}

/-- `m` owns the score `d` once `n` is off the ring. -/
def Heir : Prop :=
  ∃ v, First maxInt32 (s.Others n) d v ∧ s.firstOther n v = some m

/-- The data key is recorded for some node. -/
def Recorded (k : String) : Prop :=
  ∃ m, k ∈ s.dataKeys m

variable {s n m d v}

lemma others_subset : s.Others n ⊆ s.Scores := by
  intro v hv
  by_contra hnot
  simp [Others, firstOther, nodesAt, ids_of_not_mem hnot] at hv

lemma firstOther_ne (h : s.firstOther n v = some m) : m ≠ n := by
  simpa using find?_some h

lemma firstOther_mem (h : s.firstOther n v = some m) : m ∈ s.nodesAt v :=
  mem_of_find?_eq_some h

lemma Heir.ne (h : s.Heir n d m) : m ≠ n :=
  let ⟨_, _, hv⟩ := h
  firstOther_ne hv

/-- The nodes of a ring depend on its virtual nodes only. -/
lemma nodesAt_congr {s' : SkiplistHashRing} (h : s'.virtualNodes = s.virtualNodes) (v : ℤ) :
    s'.nodesAt v = s.nodesAt v := by
  unfold nodesAt ids get
  rw [h]

lemma owner_congr {s' : SkiplistHashRing} (h : s'.virtualNodes = s.virtualNodes) (d : ℤ) :
    s'.owner d = s.owner d := by
  unfold owner
  rw [nodesAt_congr h]
  unfold ceiling first
  rw [h]

lemma heir_congr {s' : SkiplistHashRing} (h : ∀ v, s'.firstOther n v = s.firstOther n v) :
    s'.Heir n d m ↔ s.Heir n d m := by
  unfold Heir Others
  simp only [h]

/-- What moving data keys does to the records. -/
lemma mem_dataKeys_move {a b k : String} {ds : Finset String} :
    k ∈ ((s.deleteNodeToDataKeys a ds).addNodeToDataKeys b ds).dataKeys m ↔
      (m = b ∧ k ∈ ds) ∨ (k ∈ s.dataKeys m ∧ ¬(m = a ∧ k ∈ ds)) := by
  rw [dataKeys_addNodeToDataKeys]
  by_cases hb : m = b
  · subst hb
    rw [if_pos rfl, Finset.mem_union, dataKeys_deleteNodeToDataKeys]
    by_cases ha : m = a
    · subst ha
      simp only [if_true, Finset.mem_sdiff]
      tauto
    · rw [if_neg ha]
      tauto
  · rw [if_neg hb, dataKeys_deleteNodeToDataKeys]
    by_cases ha : m = a
    · subst ha
      simp only [if_true, Finset.mem_sdiff]
      tauto
    · rw [if_neg ha]
      tauto

lemma Recorded.move {a b k : String} {ds : Finset String} (h : s.Recorded k) :
    ((s.deleteNodeToDataKeys a ds).addNodeToDataKeys b ds).Recorded k := by
  obtain ⟨m, hm⟩ := h
  by_cases hmoved : m = a ∧ k ∈ ds
  · exact ⟨b, mem_dataKeys_move.2 (.inl ⟨rfl, hmoved.2⟩)⟩
  · exact ⟨m, mem_dataKeys_move.2 (.inr ⟨hm, hmoved⟩)⟩

end SkiplistHashRing

namespace ConsistentHash

variable (c : ConsistentHash)

/-- The virtual nodes of the ring are those of `P`, given by node and index. -/
structure OnRing (s : SkiplistHashRing) (P : Set (String × ℕ)) : Prop where
  linked : s.Linked
  placed : ∀ v key, key ∈ s.ids v ↔
    ∃ m i, (m, i) ∈ P ∧ key = getRawNodeKey m i ∧ c.encryptor.encrypt key = v

/-- Every record is with the owner of the key. -/
def Settled (s : SkiplistHashRing) : Prop :=
  ∀ m k, k ∈ s.dataKeys m → s.owner (c.encryptor.encrypt k) = some m

variable {c} {s s' : SkiplistHashRing} {P : Set (String × ℕ)} {n m : String} {i : ℕ} {d v : ℤ}

namespace OnRing

variable (h : c.OnRing s P)
include h

lemma onCircle (v : ℤ) (hv : v ∈ s.Scores) : OnCircle maxInt32 v := by
  obtain ⟨key, hkey⟩ := exists_mem_of_ne_nil _ (h.linked.ids_ne_nil hv)
  obtain ⟨m, i, -, -, rfl⟩ := (h.placed v key).1 hkey
  exact c.encryptor.onCircle key

/-- Every node at a score has a virtual node of `P` there. -/
lemma mem_of_nodesAt (hm : m ∈ s.nodesAt v) : ∃ i, (m, i) ∈ P := by
  obtain ⟨key, hkey, rfl⟩ := mem_map.1 hm
  obtain ⟨m', i, hP, rfl, -⟩ := (h.placed v key).1 hkey
  exact ⟨i, by simpa using hP⟩

lemma nodesAt_ne_nil (hv : v ∈ s.Scores) : s.nodesAt v ≠ [] := by
  simpa [nodesAt] using h.linked.ids_ne_nil hv

lemma first (hne : s.Scores.Nonempty) (d : ℤ) : First maxInt32 s.Scores d (s.ceiling d) :=
  first_ceiling h.onCircle hne

/-- The owner is the first node at the first score. -/
lemma owner_eq (hv : First maxInt32 s.Scores d v) : s.owner d = (s.nodesAt v).head? := by
  rw [owner, (h.first ⟨v, hv.mem⟩ d).unique h.onCircle hv]

lemma exists_first_of_owner (ho : s.owner d = some m) :
    First maxInt32 s.Scores d (s.ceiling d) := by
  refine h.first ?_ d
  by_contra hempty
  have hnot : s.ceiling d ∉ s.Scores := fun hmem => hempty ⟨_, hmem⟩
  simp [owner, nodesAt, ids_of_not_mem hnot] at ho

lemma mem_of_owner (ho : s.owner d = some m) : ∃ i, (m, i) ∈ P :=
  h.mem_of_nodesAt (mem_of_mem_head? ho)

/-- An owner other than `n` is its own heir. -/
lemma heir_of_owner (ho : s.owner d = some m) (hne : m ≠ n) : s.Heir n d m := by
  obtain ⟨rest, hrest⟩ := head?_eq_some_iff.1 ho
  have hother : s.firstOther n (s.ceiling d) = some m := by simp [firstOther, hrest, hne]
  refine ⟨s.ceiling d, (h.exists_first_of_owner ho).subset others_subset ?_, hother⟩
  simp [Others, hother]

lemma congr (hv : s'.virtualNodes = s.virtualNodes) : c.OnRing s' P where
  linked := by
    intro score l hget
    unfold SkiplistHashRing.get at hget
    rw [hv] at hget
    exact h.linked score l hget
  placed := by
    intro v key
    unfold ids SkiplistHashRing.get
    rw [hv]
    exact h.placed v key

/-- A virtual node that is not on the ring is not at its score. -/
lemma not_mem (hnew : (n, i) ∉ P) : getRawNodeKey n i ∉ s.ids v := by
  intro hmem
  obtain ⟨m, j, hP, hkey, -⟩ := (h.placed v _).1 hmem
  obtain ⟨rfl, rfl⟩ := getRawNodeKey_inj hkey
  exact hnew hP

lemma add (hnew : (n, i) ∉ P) :
    c.OnRing (s.add (c.encryptor.encrypt (getRawNodeKey n i)) (getRawNodeKey n i))
      (insert (n, i) P) where
  linked := h.linked.add (h.not_mem hnew)
  placed := by
    intro v key
    have hmem : key ∈ (s.add (c.encryptor.encrypt (getRawNodeKey n i)) (getRawNodeKey n i)).ids v ↔
        key ∈ s.ids v ∨ key = getRawNodeKey n i ∧ c.encryptor.encrypt key = v := by
      rw [ids_add (h.not_mem hnew)]
      split_ifs with hv
      · rw [mem_append, mem_singleton, hv]
        exact or_congr_right (iff_self_and.2 fun heq => by rw [heq])
      · refine (or_iff_left ?_).symm
        rintro ⟨rfl, rfl⟩
        exact hv rfl
    rw [hmem, h.placed]
    constructor
    · rintro (⟨m, j, hP, hkey⟩ | ⟨rfl, henc⟩)
      · exact ⟨m, j, Set.mem_insert_of_mem _ hP, hkey⟩
      · exact ⟨n, i, Set.mem_insert _ _, rfl, henc⟩
    · rintro ⟨m, j, hnew' | hold, rfl, henc⟩
      · cases hnew'
        exact .inr ⟨rfl, henc⟩
      · exact .inl ⟨m, j, hold, rfl, henc⟩

/-- The ring without one virtual node. -/
lemma unlink (hP : (n, i) ∈ P)
    (hv : c.encryptor.encrypt (getRawNodeKey n i) = v) :
    c.OnRing (s.unlink v (s.ids v) (getRawNodeKey n i)) (P \ {(n, i)}) where
  linked := h.linked.unlink ((h.placed v _).2 ⟨n, i, hP, rfl, hv⟩)
  placed := by
    have hmem := (h.placed v _).2 ⟨n, i, hP, rfl, hv⟩
    intro a key
    rw [ids_unlink hmem]
    have hold := h.placed a key
    constructor
    · intro hkey
      have hkey' : key ∈ s.ids a ∧ key ≠ getRawNodeKey n i := by
        split_ifs at hkey with ha
        · rw [h.linked.nodup.mem_erase_iff] at hkey
          exact ⟨ha ▸ hkey.2, hkey.1⟩
        · refine ⟨hkey, ?_⟩
          rintro rfl
          obtain ⟨m, j, -, -, henc⟩ := hold.1 hkey
          exact ha (henc.symm.trans hv)
      obtain ⟨m, j, hPm, rfl, henc⟩ := hold.1 hkey'.1
      refine ⟨m, j, ⟨hPm, ?_⟩, rfl, henc⟩
      rintro ⟨rfl, rfl⟩
      exact hkey'.2 rfl
    · rintro ⟨m, j, ⟨hPm, hne⟩, rfl, henc⟩
      have hkey := hold.2 ⟨m, j, hPm, rfl, henc⟩
      split_ifs with ha
      · rw [h.linked.nodup.mem_erase_iff]
        refine ⟨fun heq => hne ?_, ha ▸ hkey⟩
        obtain ⟨rfl, rfl⟩ := getRawNodeKey_inj heq
        rfl
      · exact hkey

end OnRing

/-! ## A replica that comes -/

section Arrival

variable (hmig : c.migrator = true)
include hmig

lemma migrateIn_of_shared (hv : v ∈ s.Scores) (hlen : 1 < (s.ids v).length) :
    c.migrateIn v n s = .ok {} s := by
  unfold migrateIn
  simp only [hmig, Bool.not_true, Bool.false_eq_true, if_false]
  rw [node_bind _ hv, if_pos hlen, pure_run]

lemma migrateIn_of_alone (hv : v ∈ s.Scores) (hlast : s.floor (decreaseScore v) = v) :
    c.migrateIn v n s = .ok {} s := by
  unfold migrateIn
  simp only [hmig, Bool.not_true, Bool.false_eq_true, if_false]
  rw [node_bind _ hv]
  split_ifs with hlen
  · rfl
  · rw [get_bind]
    simp [hlast, pure_run]

lemma migrateIn_eq {next : String} {rest : List String} (hv : v ∈ s.Scores)
    (hlen : ¬1 < (s.ids v).length) (hlast : s.floor (decreaseScore v) ≠ v)
    (hlast' : s.floor (decreaseScore v) ≠ -1) (hnext : s.ceiling (incrScore v) ≠ v)
    (hnext' : s.ceiling (incrScore v) ≠ -1) (hx : s.ceiling (incrScore v) ∈ s.Scores)
    (hids : s.ids (s.ceiling (incrScore v)) = next :: rest) :
    let dataSet := (s.dataKeys (getNodeID next)).filter fun dataKey =>
      migratesIn (s.floor (decreaseScore v)) v (s.ceiling (incrScore v))
        (c.encryptor.encrypt dataKey)
    c.migrateIn v n s = .ok ⟨getNodeID next, n, dataSet⟩
      ((s.deleteNodeToDataKeys (getNodeID next) dataSet).addNodeToDataKeys n dataSet) := by
  unfold migrateIn
  simp only [hmig, Bool.not_true, Bool.false_eq_true, if_false]
  rw [node_bind _ hv, if_neg hlen, get_bind]
  simp only [hlast, hlast', decide_false, Bool.or_self, Bool.false_eq_true, if_false]
  rw [get_bind]
  simp only [hnext, hnext', decide_false, Bool.or_self, Bool.false_eq_true, if_false]
  rw [node_bind _ hx, hids]
  rfl

end Arrival

/-- A virtual node behind others changes no owner. -/
lemma OnRing.owner_add_shared (h : c.OnRing s P) (hnew : (n, i) ∉ P)
    (hv : c.encryptor.encrypt (getRawNodeKey n i) ∈ s.Scores) (d : ℤ) :
    (s.add (c.encryptor.encrypt (getRawNodeKey n i)) (getRawNodeKey n i)).owner d =
      s.owner d := by
  have h' := h.add hnew
  have hids := ids_add (h.not_mem (v := c.encryptor.encrypt (getRawNodeKey n i)) hnew)
  generalize hkey : getRawNodeKey n i = key at *
  generalize hscore : c.encryptor.encrypt key = v at *
  have hscores : (s.add v key).Scores = s.Scores := by
    ext a
    rw [h'.linked.mem_scores_iff, h.linked.mem_scores_iff, hids]
    split_ifs with hav
    · subst hav
      simpa using h.linked.ids_ne_nil hv
    · rfl
  have hfirst := h.first ⟨v, hv⟩ d
  rw [h.owner_eq hfirst, h'.owner_eq (hscores ▸ hfirst)]
  unfold nodesAt
  rw [hids]
  split_ifs with hav
  · rw [hav, map_append, head?_append_of_ne_nil]
    simpa using h.linked.ids_ne_nil hv
  · rfl

/-- **One replica comes.** The records stay with the owners, and no key loses its record.

**Proof sketch.** Behind other nodes at its score the new virtual node owns nothing, and alone on
the ring there is no record yet. Otherwise the keys whose owner changes are those between the
score behind and the new score; they were owned by the node at the next score, and the test of
`migrateIn` picks just these. -/
theorem Settled.addReplica (hs : c.Settled s) (hmig : c.migrator = true) (h : c.OnRing s P)
    (hnew : (n, i) ∉ P) :
    ∃ migration s', c.migrateIn (c.encryptor.encrypt (getRawNodeKey n i)) n
        (s.add (c.encryptor.encrypt (getRawNodeKey n i)) (getRawNodeKey n i)) =
          .ok migration s' ∧
      c.OnRing s' (insert (n, i) P) ∧ c.Settled s' ∧ s'.nodeToReplicas = s.nodeToReplicas ∧
      ∀ k, s.Recorded k → s'.Recorded k := by
  have h' := h.add hnew
  have hnot := h.not_mem (v := c.encryptor.encrypt (getRawNodeKey n i)) hnew
  have howner := h.owner_add_shared hnew
  have hids := ids_add hnot
  have hnode : getNodeID (getRawNodeKey n i) = n := getNodeID_getRawNodeKey n i
  have hdata : ∀ m, (s.add (c.encryptor.encrypt (getRawNodeKey n i))
      (getRawNodeKey n i)).dataKeys m = s.dataKeys m := fun m => by rw [add_eq hnot]; rfl
  have hreplicas : (s.add (c.encryptor.encrypt (getRawNodeKey n i))
      (getRawNodeKey n i)).nodeToReplicas = s.nodeToReplicas := by rw [add_eq hnot]; rfl
  generalize getRawNodeKey n i = key at *
  generalize c.encryptor.encrypt key = v at *
  generalize hr : s.add v key = r at *
  have hv : v ∈ r.Scores := mem_scores_of_ids (by rw [hids]; simp : key ∈ r.ids v)
  have hrec : ∀ k, s.Recorded k → r.Recorded k := fun k ⟨m, hm⟩ => ⟨m, by rwa [hdata]⟩
  by_cases hshared : v ∈ s.Scores
  · -- behind the nodes that are at the score already
    refine ⟨_, r, migrateIn_of_shared hmig hv ?_, h', ?_, hreplicas, hrec⟩
    · rw [hids, if_pos rfl, length_append, length_singleton]
      have := length_pos_iff.2 (h.linked.ids_ne_nil hshared)
      omega
    · intro m k hk
      rw [howner hshared]
      exact hs m k (hdata m ▸ hk)
  · have hids_v : r.ids v = [key] := by rw [hids, if_pos rfl, ids_of_not_mem hshared]; rfl
    have hscores : ∀ a, a ≠ v → (a ∈ r.Scores ↔ a ∈ s.Scores) := by
      intro a ha
      rw [h'.linked.mem_scores_iff, h.linked.mem_scores_iff, hids, if_neg ha]
    have hsub : s.Scores ⊆ r.Scores := fun a ha =>
      (hscores a (fun e => hshared (e ▸ ha))).2 ha
    have hvm := h'.onCircle v hv
    have hbehind := behind_floor h'.onCircle hv
    by_cases hlast : r.floor (prev maxInt32 v) = v
    · -- alone on the ring: nothing was owned, so nothing is recorded
      refine ⟨_, r, migrateIn_of_alone hmig hv (by rw [decreaseScore_eq hvm]; exact hlast), h', ?_,
        hreplicas, hrec⟩
      intro m k hk
      rw [hdata] at hk
      have hmem := (h.exists_first_of_owner (hs m k hk)).mem
      exact absurd (hbehind.2.1 hlast _ (hsub hmem) ▸ hmem) hshared
    · have hne : r.Scores.Nonempty := ⟨v, hv⟩
      have hnext := h'.first hne (next maxInt32 v)
      have hxv := hnext.ne_of_mem h'.onCircle hvm hbehind.1 hlast
      have hxm := h'.onCircle _ hnext.mem
      have hlm := h'.onCircle _ hbehind.1
      obtain ⟨y, rest, hy⟩ := exists_cons_of_ne_nil (h'.linked.ids_ne_nil hnext.mem)
      have heq := migrateIn_eq (n := n) hmig hv (by simp [hids_v]) (by rwa [decreaseScore_eq hvm])
        (by rw [decreaseScore_eq hvm]; have := hlm.1; omega)
        (by rwa [incrScore_eq hvm])
        (by rw [incrScore_eq hvm]; have := hxm.1; omega)
        (by rw [incrScore_eq hvm]; exact hnext.mem)
        (by rw [incrScore_eq hvm]; exact hy)
      rw [decreaseScore_eq hvm, incrScore_eq hvm] at heq
      -- the keys that the new score owns are those the test picks
      have htest : ∀ k, migratesIn (r.floor (prev maxInt32 v)) v (r.ceiling (next maxInt32 v))
          (c.encryptor.encrypt k) = true ↔
            First maxInt32 r.Scores (c.encryptor.encrypt k) v := by
        intro k
        rw [migratesIn_iff hlm hvm (c.encryptor.onCircle k)
          fun hlt => hbehind.lt_of_lt h'.onCircle hnext.mem hlt,
          first_iff_of_behind h'.onCircle (c.encryptor.onCircle k) hv hbehind hlast]
      refine ⟨_, _, heq, h'.congr (by simp), ?_, by simpa using hreplicas,
        fun k hk => (hrec k hk).move⟩
      intro m k hk
      rw [owner_congr (s := r) (by simp)]
      rcases mem_dataKeys_move.1 hk with ⟨rfl, hmoved⟩ | ⟨hk, hstay⟩
      · -- a key that moves is owned by the new score
        have hfirst := (htest k).1 (Finset.mem_filter.1 hmoved).2
        rw [h'.owner_eq hfirst]
        simp [nodesAt, hids_v, hnode]
      · rw [hdata] at hk
        have hold := hs m k hk
        by_cases hfirst : First maxInt32 r.Scores (c.encryptor.encrypt k) v
        · -- a key that the new score owns was recorded at the next score, so it moves
          have hpast := First.past h'.onCircle (c.encryptor.onCircle k) hfirst hsub hshared
            (hnext.subset hsub ((hscores _ hxv).1 hnext.mem))
          have hidx : s.ids (r.ceiling (next maxInt32 v)) = y :: rest := by
            rw [← hy, hids, if_neg hxv]
          rw [h.owner_eq hpast] at hold
          have hm : m = getNodeID y := by simpa [nodesAt, hidx, eq_comm] using hold
          refine absurd ⟨hm, Finset.mem_filter.2 ⟨?_, (htest k).2 hfirst⟩⟩ hstay
          rwa [hdata, ← hm]
        · have hw := h'.first hne (c.encryptor.encrypt k)
          have hwv : r.ceiling (c.encryptor.encrypt k) ≠ v := fun e => hfirst (e ▸ hw)
          have hw' := hw.subset hsub ((hscores _ hwv).1 hw.mem)
          rw [h.owner_eq hw'] at hold
          rw [h'.owner_eq hw, ← hold]
          unfold nodesAt
          rw [hids, if_neg hwv]

end ConsistentHash

end Yukino.HashRing
