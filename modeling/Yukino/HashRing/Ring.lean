import Mathlib.Data.List.AList
import Mathlib.Data.Finset.Basic
import Yukino.Lib.RingWalk

set_option autoImplicit false

/-!
# The local hash ring of `components/consistent_hash`

`local.SkiplistHashRing`: the virtual nodes by score, the replicas of every registered node and
the data keys recorded for every node.

## Main definitions

* `SkiplistHashRing`, with `add`, `rem`, `node`, `ceiling`, `floor` and the
  operations on replicas and data keys.
* `RingM` — computations on a ring that can fail; a failure keeps the changes made
  before it.
* `SkiplistHashRing.Scores` — the scores that carry a virtual node.

## Main results

* `SkiplistHashRing.first_ceiling`,
  `SkiplistHashRing.behind_floor` — `ceiling` and `floor` in terms of the circle.

## Design

A ring holds a virtual node for a score as the skip list does, with the ids in the order they
were added; the towers of the list only shorten the search for a score and are left out, so
`ceiling` and `floor` are the least and the greatest score of the ring that the walk over the
bottom level finds. The mutexes are left out as well: calls are taken one after another.
-/

namespace Yukino.HashRing

open RingWalk List AList Option

/-- `math.MaxInt32`, the circumference of the ring. -/
def maxInt32 : ℤ := 2147483647

/-- How a call fails. -/
inductive Failure
  /-- An error with its text. -/
  | error (text : String)
  /-- A walk around the ring that a bound on its rounds cut off. -/
  | rounds
  deriving DecidableEq, Repr

structure SkiplistHashRing where
  virtualNodes : AList (fun _ : ℤ => List String) := ∅
  nodeToReplicas : AList (fun _ : String => ℤ) := ∅
  nodeToDataKey : AList (fun _ : String => Finset String) := ∅

/-- Computations on a ring. -/
abbrev RingM := EStateM Failure SkiplistHashRing

namespace SkiplistHashRing

def get (s : SkiplistHashRing) (score : ℤ) : Option (List String) :=
  s.virtualNodes.lookup score

def first (s : SkiplistHashRing) : ℤ :=
  s.virtualNodes.keys.min?.getD (-1)

def last (s : SkiplistHashRing) : ℤ :=
  s.virtualNodes.keys.max?.getD (-1)

/-- The least score from `score` on, or else the least score; `-1` for an empty ring. -/
def ceiling (s : SkiplistHashRing) (score : ℤ) : ℤ :=
  (s.virtualNodes.keys.filter (score ≤ ·)).min?.getD s.first

/-- The greatest score up to `score`, or else the greatest score; `-1` for an empty ring. -/
def floor (s : SkiplistHashRing) (score : ℤ) : ℤ :=
  (s.virtualNodes.keys.filter (· ≤ score)).max?.getD s.last

def setNode (s : SkiplistHashRing) (score : ℤ) (nodeIDs : List String) : SkiplistHashRing :=
  { s with virtualNodes := s.virtualNodes.insert score nodeIDs }

def add (s : SkiplistHashRing) (score : ℤ) (nodeID : String) : SkiplistHashRing :=
  match s.get score with
  | some nodeIDs =>
    if nodeID ∈ nodeIDs then s else s.setNode score (nodeIDs ++ [nodeID])
  | none => s.setNode score [nodeID]

/-- The virtual nodes without one id, and without its score if the id was alone there. -/
def unlink (s : SkiplistHashRing) (score : ℤ) (nodeIDs : List String) (nodeID : String) :
    SkiplistHashRing :=
  if nodeIDs.length > 1 then s.setNode score (nodeIDs.erase nodeID)
  else { s with virtualNodes := s.virtualNodes.erase score }

/-- Data keys are recorded for nodes; `rem` deletes them under the id it is given, which is that
of a virtual node. -/
def rem (score : ℤ) (nodeID : String) : RingM Unit := fun s =>
  match s.get score with
  | none => .error (.error s!"score: {score} not exist") s
  | some nodeIDs =>
    if nodeID ∈ nodeIDs then
      let s := { s with nodeToDataKey := s.nodeToDataKey.erase nodeID }
      .ok () (s.unlink score nodeIDs nodeID)
    else .error (.error s!"node: {nodeID} not exist in score: {score}") s

def node (score : ℤ) : RingM (List String) := fun s =>
  match s.get score with
  | none => .error (.error s!"score: {score} not exist") s
  | some nodeIDs => .ok nodeIDs s

def addNodeToReplica (s : SkiplistHashRing) (nodeID : String) (replicas : ℤ) :
    SkiplistHashRing :=
  { s with nodeToReplicas := s.nodeToReplicas.insert nodeID replicas }

def deleteNodeToReplica (s : SkiplistHashRing) (nodeID : String) : SkiplistHashRing :=
  { s with nodeToReplicas := s.nodeToReplicas.erase nodeID }

def dataKeys (s : SkiplistHashRing) (nodeID : String) : Finset String :=
  (s.nodeToDataKey.lookup nodeID).getD ∅

def addNodeToDataKeys (s : SkiplistHashRing) (nodeID : String) (dataKeys : Finset String) :
    SkiplistHashRing :=
  { s with nodeToDataKey := s.nodeToDataKey.insert nodeID (s.dataKeys nodeID ∪ dataKeys) }

def deleteNodeToDataKeys (s : SkiplistHashRing) (nodeID : String) (dataKeys : Finset String) :
    SkiplistHashRing :=
  match s.nodeToDataKey.lookup nodeID with
  | none => s
  | some oldDataKeys =>
    if oldDataKeys \ dataKeys = ∅ then { s with nodeToDataKey := s.nodeToDataKey.erase nodeID }
    else { s with nodeToDataKey := s.nodeToDataKey.insert nodeID (oldDataKeys \ dataKeys) }

/-! ## Data keys -/

section DataKeys

variable (s : SkiplistHashRing) (n m : String) (ks : Finset String)

lemma dataKeys_addNodeToDataKeys :
    (s.addNodeToDataKeys n ks).dataKeys m = if m = n then s.dataKeys n ∪ ks else s.dataKeys m := by
  unfold addNodeToDataKeys dataKeys
  split_ifs with h
  · subst h
    simp
  · simp [lookup_insert_ne h]

lemma dataKeys_deleteNodeToDataKeys :
    (s.deleteNodeToDataKeys n ks).dataKeys m =
      if m = n then s.dataKeys n \ ks else s.dataKeys m := by
  unfold deleteNodeToDataKeys dataKeys
  split
  case h_1 hnone =>
    split_ifs with h
    · subst h
      simp [hnone]
    · rfl
  case h_2 old hold =>
    split_ifs with hempty h h
    · subst h
      simp [hold, hempty]
    · simp [lookup_erase_ne h]
    · subst h
      simp [hold]
    · simp [lookup_insert_ne h]

@[simp] lemma virtualNodes_addNodeToDataKeys :
    (s.addNodeToDataKeys n ks).virtualNodes = s.virtualNodes := rfl

@[simp] lemma virtualNodes_deleteNodeToDataKeys :
    (s.deleteNodeToDataKeys n ks).virtualNodes = s.virtualNodes := by
  unfold deleteNodeToDataKeys
  split
  · rfl
  · split_ifs <;> rfl

@[simp] lemma nodeToReplicas_addNodeToDataKeys :
    (s.addNodeToDataKeys n ks).nodeToReplicas = s.nodeToReplicas := rfl

@[simp] lemma nodeToReplicas_deleteNodeToDataKeys :
    (s.deleteNodeToDataKeys n ks).nodeToReplicas = s.nodeToReplicas := by
  unfold deleteNodeToDataKeys
  split
  · rfl
  · split_ifs <;> rfl

end DataKeys

/-! ## Virtual nodes

`ids s score` are the ids at a score, none where the ring has no virtual node. -/

/-- The ids of the virtual node at a score. -/
def ids (s : SkiplistHashRing) (score : ℤ) : List String :=
  (s.get score).getD []

/-- The scores that carry a virtual node. -/
def Scores (s : SkiplistHashRing) : Set ℤ :=
  {score | score ∈ s.virtualNodes}

/-- No virtual node is without an id, and none holds an id twice. -/
def Linked (s : SkiplistHashRing) : Prop :=
  ∀ score nodeIDs, s.get score = some nodeIDs → nodeIDs ≠ [] ∧ nodeIDs.Nodup

variable {s : SkiplistHashRing} {score d : ℤ}

lemma mem_scores_iff : score ∈ s.Scores ↔ (s.get score).isSome :=
  lookup_isSome.symm

lemma get_of_mem (h : score ∈ s.Scores) : s.get score = some (s.ids score) := by
  obtain ⟨nodeIDs, hget⟩ := isSome_iff_exists.1 (mem_scores_iff.1 h)
  simp [ids, hget]

lemma ids_of_not_mem (h : score ∉ s.Scores) : s.ids score = [] := by
  rw [mem_scores_iff, Bool.not_eq_true, isSome_eq_false_iff, isNone_iff_eq_none] at h
  simp [ids, h]

lemma mem_scores_of_ids {nodeID : String} (h : nodeID ∈ s.ids score) : score ∈ s.Scores := by
  by_contra hnot
  simp [ids_of_not_mem hnot] at h

lemma Linked.ids_ne_nil (hs : s.Linked) (h : score ∈ s.Scores) : s.ids score ≠ [] :=
  (hs _ _ (get_of_mem h)).1

lemma Linked.nodup (hs : s.Linked) : (s.ids score).Nodup := by
  by_cases h : score ∈ s.Scores
  · exact (hs _ _ (get_of_mem h)).2
  · simp [ids_of_not_mem h]

lemma Linked.mem_scores_iff (hs : s.Linked) : score ∈ s.Scores ↔ s.ids score ≠ [] :=
  ⟨hs.ids_ne_nil, fun h => by_contra fun hnot => h (ids_of_not_mem hnot)⟩

lemma mem_keys_iff : score ∈ s.virtualNodes.keys ↔ score ∈ s.Scores :=
  mem_keys.symm

/-- `ceiling` of an empty ring is `-1`. -/
lemma ceiling_of_empty (h : ∀ score, score ∉ s.Scores) : s.ceiling d = -1 := by
  have hnil : s.virtualNodes.keys = [] :=
    eq_nil_iff_forall_not_mem.2 fun a ha => h a (mem_keys_iff.1 ha)
  simp [ceiling, first, hnil]

/-- **`ceiling` on the circle**: it is the first score on the way from `d`. -/
lemma first_ceiling (hS : ∀ a ∈ s.Scores, OnCircle maxInt32 a) (h : s.Scores.Nonempty) :
    First maxInt32 s.Scores d (s.ceiling d) := by
  obtain ⟨a, ha⟩ := h
  unfold ceiling first
  cases habove : (s.virtualNodes.keys.filter (d ≤ ·)).min? with
  | some c =>
    obtain ⟨hc, hle⟩ := min?_eq_some_iff.1 habove
    simp only [mem_filter, decide_eq_true_eq] at hc hle
    exact first_of_least_above hS hc.1 hc.2 fun b hb hdb => hle b ⟨hb, hdb⟩
  | none =>
    have hnone := min?_eq_none_iff.1 habove
    simp only [filter_eq_nil_iff, decide_eq_true_eq, not_le] at hnone
    cases hmin : s.virtualNodes.keys.min? with
    | none => exact absurd (mem_keys_iff.2 ha) (by simp [min?_eq_none_iff.1 hmin])
    | some c =>
      obtain ⟨hc, hle⟩ := min?_eq_some_iff.1 hmin
      exact first_of_least hc hle hnone

/-- **`floor` on the circle**: from the point before a score of the ring it finds the score
behind. -/
lemma behind_floor (hS : ∀ a ∈ s.Scores, OnCircle maxInt32 a) {v : ℤ} (hv : v ∈ s.Scores) :
    Behind maxInt32 s.Scores v (s.floor (prev maxInt32 v)) := by
  unfold floor last
  cases hbelow : (s.virtualNodes.keys.filter (· ≤ prev maxInt32 v)).max? with
  | some l =>
    obtain ⟨hl, hge⟩ := max?_eq_some_iff.1 hbelow
    simp only [mem_filter, decide_eq_true_eq] at hl hge
    rw [getD_some]
    unfold RingWalk.prev at hl hge
    by_cases hv0 : v = 0
    · refine behind_of_greatest hl.1 (fun b hb => hge b ⟨hb, ?_⟩) fun b hb => ?_
      all_goals
        have := hS b hb
        unfold OnCircle at this
        omega
    · exact behind_of_greatest_below hS hl.1 (by omega) fun b hb hbv => hge b ⟨hb, by omega⟩
  | none =>
    have hnone := max?_eq_none_iff.1 hbelow
    simp only [filter_eq_nil_iff, decide_eq_true_eq] at hnone
    cases hmax : s.virtualNodes.keys.max? with
    | none => exact absurd (mem_keys_iff.2 hv) (by simp [max?_eq_none_iff.1 hmax])
    | some l =>
      obtain ⟨hl, hge⟩ := max?_eq_some_iff.1 hmax
      refine behind_of_greatest hl hge fun b hb => ?_
      have hb' := hnone b hb
      have hbm := hS b hb
      unfold RingWalk.prev OnCircle at *
      split_ifs at hb' <;> omega

/-! ## Running computations -/

section Run

variable {α β : Type}

lemma get_bind (f : SkiplistHashRing → RingM β) (s : SkiplistHashRing) :
    (EStateM.get >>= f) s = f s s := rfl

lemma modify_bind (g : SkiplistHashRing → SkiplistHashRing) (f : Unit → RingM β)
    (s : SkiplistHashRing) : ((modify g : RingM Unit) >>= f) s = f () (g s) := rfl

lemma pure_run (a : α) (s : SkiplistHashRing) : (pure a : RingM α) s = .ok a s := rfl

/-- `node` succeeds for the scores of the ring. -/
lemma node_bind (f : List String → RingM β) (h : score ∈ s.Scores) :
    (node score >>= f) s = f (s.ids score) s := by
  show EStateM.bind (node score) f s = _
  unfold EStateM.bind node
  rw [get_of_mem h]

end Run

/-! ## What `add` and `unlink` do to the ids -/

lemma get_setNode (nodeIDs : List String) (a : ℤ) :
    (s.setNode score nodeIDs).get a = if a = score then some nodeIDs else s.get a := by
  unfold setNode get
  split_ifs with h
  · subst h
    simp
  · exact lookup_insert_ne h

lemma ids_setNode (nodeIDs : List String) (a : ℤ) :
    (s.setNode score nodeIDs).ids a = if a = score then nodeIDs else s.ids a := by
  unfold ids
  rw [get_setNode]
  split_ifs <;> rfl

lemma Linked.setNode (hs : s.Linked) {nodeIDs : List String} (hne : nodeIDs ≠ [])
    (hnodup : nodeIDs.Nodup) : (s.setNode score nodeIDs).Linked := by
  intro a l hget
  rw [get_setNode] at hget
  split_ifs at hget with h
  · cases hget
    exact ⟨hne, hnodup⟩
  · exact hs a l hget

/-- A new id goes behind those its score has. -/
lemma add_eq {nodeID : String} (hnew : nodeID ∉ s.ids score) :
    s.add score nodeID = s.setNode score (s.ids score ++ [nodeID]) := by
  unfold add ids at *
  cases hget : s.get score with
  | none => simp
  | some nodeIDs =>
    rw [hget] at hnew
    simp [show nodeID ∉ nodeIDs from hnew]

lemma ids_add {nodeID : String} (hnew : nodeID ∉ s.ids score) (a : ℤ) :
    (s.add score nodeID).ids a = if a = score then s.ids score ++ [nodeID] else s.ids a := by
  rw [add_eq hnew, ids_setNode]

lemma Linked.add (hs : s.Linked) {nodeID : String} (hnew : nodeID ∉ s.ids score) :
    (s.add score nodeID).Linked := by
  rw [add_eq hnew]
  refine hs.setNode (by simp) ?_
  rw [nodup_append]
  refine ⟨hs.nodup, nodup_singleton _, ?_⟩
  rintro a ha b hb rfl
  exact hnew (mem_singleton.1 hb ▸ ha)

lemma ids_unlink {nodeID : String} (hmem : nodeID ∈ s.ids score) (a : ℤ) :
    (s.unlink score (s.ids score) nodeID).ids a =
      if a = score then (s.ids score).erase nodeID else s.ids a := by
  unfold unlink
  split_ifs with hlen h h
  · simp [ids_setNode, h]
  · simp [ids_setNode, h]
  · -- the id was alone at its score, which leaves the ring
    obtain ⟨b, hb⟩ : ∃ b, s.ids score = [b] := by
      refine length_eq_one_iff.1 ?_
      have := length_pos_iff.2 (ne_nil_of_mem hmem)
      omega
    rw [hb, mem_singleton] at hmem
    subst h
    rw [hb, hmem]
    simp [ids, get]
  · simp [ids, get, lookup_erase_ne h]

/-- `rem` succeeds for an id that the ring has at the score, and deletes the data keys under this
id. -/
lemma rem_ok {s₁ : SkiplistHashRing} {nodeID : String} (hmem : nodeID ∈ s.ids score)
    (hsame : s₁.virtualNodes = s.virtualNodes) :
    ∃ s', rem score nodeID s₁ = .ok () s' ∧
      s'.virtualNodes = (s.unlink score (s.ids score) nodeID).virtualNodes ∧
      s'.nodeToReplicas = s₁.nodeToReplicas ∧
      ∀ n, s'.dataKeys n = if n = nodeID then ∅ else s₁.dataKeys n := by
  have hget : s₁.get score = some (s.ids score) := by
    rw [← get_of_mem (mem_scores_of_ids hmem), get, hsame, get]
  refine ⟨_, by rw [rem, hget]; exact if_pos hmem, ?_, ?_, fun n => ?_⟩
  · unfold unlink
    split_ifs <;> simp [setNode, hsame]
  · unfold unlink
    split_ifs <;> rfl
  · have hkeys : ∀ s' : SkiplistHashRing, (s'.unlink score (s.ids score) nodeID).dataKeys n =
        s'.dataKeys n := by
      intro s'
      unfold unlink
      split_ifs <;> rfl
    rw [hkeys]
    unfold dataKeys
    split_ifs with hn
    · rw [hn, lookup_erase, getD_none]
    · rw [lookup_erase_ne hn]

lemma Linked.unlink (hs : s.Linked) {nodeID : String} (hmem : nodeID ∈ s.ids score) :
    (s.unlink score (s.ids score) nodeID).Linked := by
  unfold SkiplistHashRing.unlink
  split_ifs with hlen
  · refine hs.setNode ?_ (hs.nodup.erase _)
    rw [← length_pos_iff, length_erase_of_mem hmem]
    omega
  · intro a l hget
    refine hs a l ?_
    rcases eq_or_ne a score with rfl | h
    · simp [get] at hget
    · simpa [get, lookup_erase_ne h] using hget

end SkiplistHashRing

end Yukino.HashRing
