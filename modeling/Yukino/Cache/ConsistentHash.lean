import Mathlib.Data.List.AList
import Yukino.Lib.MachineInt
import Yukino.Lib.Outcome
import Yukino.Lib.Search

set_option autoImplicit false

/-!
# The ring of peers of `libs/yukino_cache`

`ConsistentHashMap`: every member node has virtual points on the ring, and a key belongs to
the node of the first point from the hash of the key on. A point that is taken is skipped
when a node is added.

## Main definitions

* `ConsistentHashMap`, with `add`, `remove` and `get`.
* `ConsistentHashMap.run` — sequences of calls.
* `CollisionFree` — no two of some nodes have a virtual point in common.

## Main results

* `ConsistentHashMap.Inv.run` — `keys` is increasing and is the domain of `hashMap`, and
  `nodeHashes` is `hashMap` by nodes.
* `owners_agree_iff` — the members determine the owner of every key exactly for nodes without
  collisions.
* `owners_disagree` — two orders of addition with different owners.

## Design

The fields that only report load (`MinReplicas` and so on) are not read by the ring. `Add`
panics for a new node if `DefaultReplicas` is negative, in `make`.
-/

namespace Yukino.Caches

open MachineInt Outcome List AList Option

structure ConHashConfig where
  defaultReplicas : ℤ
  hashFunc : String → UInt32

/-- What stops a call. -/
inductive RingPanic
  /-- `makeslice: cap out of range`. -/
  | makeslice
  deriving DecidableEq, Repr

structure ConsistentHashMap where
  config : ConHashConfig
  keys : List ℕ := []
  hashMap : AList (fun _ : ℕ => String) := ∅
  nodeHashes : AList (fun _ : String => List ℕ) := ∅
  nodeCounts : AList (fun _ : String => ℤ) := ∅
  totalRequests : ℤ := 0

/-- The hash of the `i`-th virtual point of a node. -/
def ConHashConfig.point (c : ConHashConfig) (node : String) (i : ℕ) : ℕ :=
  (c.hashFunc (node ++ "-" ++ toString i)).toNat

namespace ConsistentHashMap

/-- The body of the loop of `addNodeLocked`, with the variable `hashes`. -/
def addPoint (node : String) (s : ConsistentHashMap × List ℕ) (i : ℕ) :
    ConsistentHashMap × List ℕ :=
  let (m, hashes) := s
  let hash := m.config.point node i
  if hash ∈ m.hashMap then (m, hashes)
  else
    ({ m with keys := m.keys ++ [hash], hashMap := m.hashMap.insert hash node }, hashes ++ [hash])

def addNodeLocked (m : ConsistentHashMap) (node : String) (replicas : ℤ) :
    Except RingPanic ConsistentHashMap :=
  if node ∈ m.nodeHashes then .ok m
  else if replicas < 0 then .error .makeslice
  else
    let (m, hashes) := (range replicas.toNat).foldl (addPoint node) (m, [])
    let m := { m with nodeHashes := m.nodeHashes.insert node hashes }
    .ok (if node ∈ m.nodeCounts then m
      else { m with nodeCounts := m.nodeCounts.insert node 0 })

/-- The loop of `Add`. -/
def addNodes (m : ConsistentHashMap) (nodes : List String) : Except RingPanic ConsistentHashMap :=
  nodes.foldlM (fun m node =>
    if node = "" then .ok m else m.addNodeLocked node m.config.defaultReplicas) m

/-- `Add(nodes...)`, with the error it returns. -/
def add (m : ConsistentHashMap) (nodes : List String) :
    Except RingPanic (ConsistentHashMap × Option String) :=
  if nodes = [] then .ok (m, some "no nodes provided")
  else do
    let m ← m.addNodes nodes
    .ok ({ m with keys := m.keys.mergeSort }, none)

def removeNodeLocked (m : ConsistentHashMap) (node : String) :
    ConsistentHashMap × Option String :=
  match m.nodeHashes.lookup node with
  | none => (m, some ("node " ++ node ++ " not found"))
  | some hashes =>
    ({ m with
        hashMap := hashes.foldl (fun hashMap hash => hashMap.erase hash) m.hashMap
        keys := m.keys.filter fun k => k ∉ hashes
        nodeHashes := m.nodeHashes.erase node
        nodeCounts := m.nodeCounts.erase node }, none)

/-- `Remove(node)`, with the error it returns. -/
def remove (m : ConsistentHashMap) (node : String) : ConsistentHashMap × Option String :=
  if node = "" then (m, some "invalid node") else m.removeNodeLocked node

/-- The node that `Get` finds for a hash. -/
def find (m : ConsistentHashMap) (hash : ℕ) : String :=
  let idx := Search.search m.keys.length fun i => hash ≤ m.keys[i]?.getD 0
  let idx := if idx = m.keys.length then 0 else idx
  (m.hashMap.lookup (m.keys[idx]?.getD 0)).getD ""

/-- `Get(key)`, with the node it returns. -/
def get (m : ConsistentHashMap) (key : String) : ConsistentHashMap × String :=
  if key = "" then (m, "")
  else if m.keys = [] then (m, "")
  else
    let node := m.find (m.config.hashFunc key).toNat
    let nodeCounts := match m.nodeCounts.lookup node with
      | some counter => m.nodeCounts.insert node (int64 (counter + 1))
      | none => m.nodeCounts
    ({ m with nodeCounts := nodeCounts, totalRequests := int64 (m.totalRequests + 1) }, node)

/-- A call. -/
inductive Op
  | add (nodes : List String)
  | remove (node : String)
  | get (key : String)
  deriving DecidableEq, Repr

def step (m : ConsistentHashMap) : Op → Except RingPanic ConsistentHashMap
  | .add nodes => do .ok (← m.add nodes).1
  | .remove node => .ok (m.remove node).1
  | .get key => .ok (m.get key).1

/-- A sequence of calls that all return. -/
def run (m : ConsistentHashMap) (ops : List Op) : Except RingPanic ConsistentHashMap :=
  ops.foldlM step m

end ConsistentHashMap

/-- `NewConsistentHash(WithConsistentHashConfig(config))`. -/
def newConsistentHash (config : ConHashConfig) : ConsistentHashMap := { config := config }

/-- Where a node has its virtual points. -/
def ConHashConfig.IsPoint (c : ConHashConfig) (node : String) (h : ℕ) : Prop :=
  ∃ i : ℕ, (i : ℤ) < c.defaultReplicas ∧ c.point node i = h

namespace ConsistentHashMap

/-! ## The points of a node -/

/-- What the loop of `addNodeLocked` has done when it has gone over the numbers `is`. -/
structure Placed (m₀ : ConsistentHashMap) (node : String) (is : List ℕ) (m : ConsistentHashMap)
    (hashes : List ℕ) : Prop where
  rest : m = { m₀ with keys := m₀.keys ++ hashes, hashMap := m.hashMap }
  lookup : ∀ h, m.hashMap.lookup h = if h ∈ hashes then some node else m₀.hashMap.lookup h
  nodup : hashes.Nodup
  mem : ∀ h, h ∈ hashes ↔ h ∉ m₀.hashMap ∧ ∃ i ∈ is, m₀.config.point node i = h

variable {m₀ m m' : ConsistentHashMap} {node : String} {is hashes : List ℕ}
  {P : ConsistentHashMap → Prop} {op : Op} {ops : List Op}

lemma mem_hashMap_iff {t t' : AList (fun _ : ℕ => String)}
    (ht : ∀ h, t'.lookup h = if h ∈ hashes then some node else t.lookup h) (h : ℕ) :
    h ∈ t' ↔ h ∈ hashes ∨ h ∈ t := by
  rw [← lookup_isSome, ht]
  split_ifs with hmem
  · simp [hmem]
  · rw [lookup_isSome]
    simp [hmem]

lemma Placed.step
    (hp : Placed m₀ node is m hashes) (i : ℕ) :
    Placed m₀ node (is ++ [i]) (addPoint node (m, hashes) i).1
      (addPoint node (m, hashes) i).2 := by
  have hconfig : m.config = m₀.config := by rw [hp.rest]
  have hpoints : ∀ h, (∃ j ∈ is ++ [i], m₀.config.point node j = h) ↔
      (∃ j ∈ is, m₀.config.point node j = h) ∨ m₀.config.point node i = h := by
    simp [or_and_right, exists_or]
  have hhashMap := mem_hashMap_iff hp.lookup
  unfold addPoint
  dsimp only
  rw [hconfig]
  split_ifs with htaken
  · refine ⟨hp.rest, hp.lookup, hp.nodup, fun h => ?_⟩
    rw [hp.mem, hpoints]
    refine and_congr_right fun hfree => ⟨.inl, ?_⟩
    rintro (hmem | rfl)
    · exact hmem
    · -- the point that was skipped is one of the node itself
      exact ((hp.mem _).1 (((hhashMap _).1 htaken).resolve_right hfree)).2
  · rw [hhashMap, not_or] at htaken
    refine ⟨?_, fun h => ?_, ?_, fun h => ?_⟩
    · rw [hp.rest]
      simp
    · rcases eq_or_ne h (m₀.config.point node i) with rfl | hne
      · rw [lookup_insert, if_pos (by simp)]
      · rw [lookup_insert_ne hne, hp.lookup]
        simp [hne]
    · exact hp.nodup.append (nodup_singleton _) (by simpa using htaken.1)
    · rw [mem_append, hp.mem, mem_singleton, hpoints, and_or_left, eq_comm (a := h)]
      refine or_congr_right ⟨?_, And.right⟩
      rintro rfl
      exact ⟨htaken.2, rfl⟩

lemma Placed.foldl
    (hp : Placed m₀ node is m hashes) (js : List ℕ) :
    Placed m₀ node (is ++ js) (js.foldl (addPoint node) (m, hashes)).1
      (js.foldl (addPoint node) (m, hashes)).2 := by
  induction js generalizing is m hashes with
  | nil =>
    rw [append_nil]
    exact hp
  | cons j js ih =>
    rw [append_cons]
    exact ih (hp.step j)

lemma placed_nil (m : ConsistentHashMap) (node : String) : Placed m node [] m [] where
  rest := by simp
  lookup := by simp
  nodup := nodup_nil
  mem := by simp

/-- What `addNodeLocked` does with a new node: it takes the points that are free. -/
lemma addNodeLocked_new
    (hnew : node ∉ m.nodeHashes) (h : m.addNodeLocked node m.config.defaultReplicas = .ok m') :
    ∃ hashes : List ℕ, m'.config = m.config ∧ m'.keys = m.keys ++ hashes ∧
      m'.nodeHashes = m.nodeHashes.insert node hashes ∧ hashes.Nodup ∧
      (∀ x, m'.hashMap.lookup x = if x ∈ hashes then some node else m.hashMap.lookup x) ∧
      ∀ x, x ∈ hashes ↔ x ∉ m.hashMap ∧ m.config.IsPoint node x := by
  unfold addNodeLocked at h
  rw [if_neg hnew] at h
  split at h
  · cases h
  · have hp := (placed_nil m node).foldl (range m.config.defaultReplicas.toNat)
    generalize (range m.config.defaultReplicas.toNat).foldl (addPoint node) (m, []) = s
      at h hp
    obtain ⟨m₁, hashes⟩ := s
    dsimp only at h hp
    have hmem : ∀ x, x ∈ hashes ↔ x ∉ m.hashMap ∧ m.config.IsPoint node x := by
      intro x
      rw [hp.mem]
      refine and_congr_right' (exists_congr fun i => and_congr_left' ?_)
      rw [nil_append, mem_range]
      omega
    refine ⟨hashes, ?_⟩
    split at h
    all_goals
      cases h
      exact ⟨by rw [hp.rest], by rw [hp.rest], by rw [hp.rest], hp.nodup, hp.lookup, hmem⟩

/-! ## The invariant of the ring -/

/-- `hashMap` has the domain `keys`, and `nodeHashes` is the same map by nodes. -/
structure Linked (m : ConsistentHashMap) : Prop where
  nodup : m.keys.Nodup
  mem_keys : ∀ h, h ∈ m.keys ↔ h ∈ m.hashMap
  owner : ∀ h n, m.hashMap.lookup h = some n ↔ ∃ hs, m.nodeHashes.lookup n = some hs ∧ h ∈ hs
  points : ∀ n hs, m.nodeHashes.lookup n = some hs → ∀ h ∈ hs, m.config.IsPoint n h

/-- Between the calls `keys` is increasing as well. -/
structure Inv (m : ConsistentHashMap) : Prop extends Linked m where
  sorted : m.keys.Pairwise (· < ·)

lemma inv_new (config : ConHashConfig) : Inv (newConsistentHash config) where
  nodup := nodup_nil
  mem_keys h := by simp [newConsistentHash]
  owner h n := by simp [newConsistentHash]
  points n hs hlookup := by simp [newConsistentHash] at hlookup
  sorted := List.Pairwise.nil

lemma Linked.addNodeLocked (hm : Linked m) (hnew : node ∉ m.nodeHashes)
    (h : m.addNodeLocked node m.config.defaultReplicas = .ok m') : Linked m' := by
  obtain ⟨hashes, hconfig, hkeys, hnodes, hnodup, hlookup, hmem⟩ := addNodeLocked_new hnew h
  refine ⟨?_, fun x => ?_, fun x n => ?_, fun n hs hn x hx => ?_⟩
  · rw [hkeys]
    refine hm.nodup.append hnodup ?_
    intro x hx hx'
    exact ((hmem x).1 hx').1 ((hm.mem_keys x).1 hx)
  · rw [hkeys, mem_append, hm.mem_keys, mem_hashMap_iff hlookup, or_comm]
  · rw [hlookup, hnodes]
    rcases eq_or_ne n node with rfl | hne
    · split_ifs with hx
      · simp [hx]
      · -- a node that is not a member owns nothing
        have hnone : m.nodeHashes.lookup n = none := lookup_eq_none.2 hnew
        rw [hm.owner, hnone]
        simp [hx]
    · rw [lookup_insert_ne hne, ← hm.owner]
      split_ifs with hx
      · have hfree := lookup_eq_none.2 ((hmem x).1 hx).1
        rw [hfree]
        simp [hne.symm]
      · exact Iff.rfl
  · rw [hnodes] at hn
    rw [hconfig]
    rcases eq_or_ne n node with rfl | hne
    · rw [lookup_insert] at hn
      cases hn
      exact ((hmem x).1 hx).2
    · rw [lookup_insert_ne hne] at hn
      exact hm.points n hs hn x hx

lemma lookup_foldl_erase (t : AList (fun _ : ℕ => String)) (hashes : List ℕ) (h : ℕ) :
    (hashes.foldl (fun t hash => t.erase hash) t).lookup h =
      if h ∈ hashes then none else t.lookup h := by
  induction hashes generalizing t with
  | nil => simp
  | cons x hashes ih =>
    rw [foldl_cons, ih]
    rcases eq_or_ne h x with rfl | hne
    · simp
    · simp [hne]

/-- Removing a node that is a member takes its points away, and nothing else. -/
lemma Inv.removeNodeLocked (hm : Inv m) (node : String) : Inv (m.removeNodeLocked node).1 := by
  unfold ConsistentHashMap.removeNodeLocked
  split
  · exact hm
  · rename_i hashes hnode
    have hlookup := lookup_foldl_erase m.hashMap hashes
    refine ⟨⟨hm.nodup.filter _, fun x => ?_, fun x n => ?_, fun n hs hn x hx => ?_⟩,
      hm.sorted.filter _⟩
    · rw [mem_filter, hm.mem_keys, ← lookup_isSome, ← lookup_isSome, hlookup]
      split_ifs with hx
      · simp [hx]
      · simp [hx]
    · rw [hlookup]
      rcases eq_or_ne n node with rfl | hne
      · split_ifs with hx
        · simp
        · rw [hm.owner, hnode]
          simp [hx]
      · rw [lookup_erase_ne hne, ← hm.owner]
        split_ifs with hx
        · have howner := (hm.owner x node).2 ⟨hashes, hnode, hx⟩
          rw [howner]
          simp [hne.symm]
        · exact Iff.rfl
    · rcases eq_or_ne n node with rfl | hne
      · rw [lookup_erase] at hn
        cases hn
      · rw [lookup_erase_ne hne] at hn
        exact hm.points n hs hn x hx

/-- What `addNodeLocked` keeps for the nodes that are new, the loop of `Add` keeps. -/
lemma addNodes_induction {nodes : List String}
    (hadd : ∀ m m' node, P m → node ∈ nodes → node ≠ "" → node ∉ m.nodeHashes →
      m.addNodeLocked node m.config.defaultReplicas = .ok m' → P m')
    (hm : P m) (h : m.addNodes nodes = .ok m') : P m' := by
  refine Ensures.foldlM hm (fun node hmem m hm => ?_) m' h
  split_ifs with hne
  · exact .ok hm
  · by_cases hnew : node ∈ m.nodeHashes
    · rw [addNodeLocked, if_pos hnew]
      exact .ok hm
    · exact fun m' => hadd m m' node hm hmem hne hnew

/-- What a call does to the ring. -/
lemma step_cases (h : m.step op = .ok m') :
    (∃ nodes m₁, op = .add nodes ∧ m.addNodes nodes = .ok m₁ ∧
      m' = { m₁ with keys := m₁.keys.mergeSort }) ∨
    (∃ node, op = .remove node ∧ m' = (m.removeNodeLocked node).1) ∨
    ∃ counts total, m' = { m with nodeCounts := counts, totalRequests := total } := by
  cases op with
  | add nodes =>
    by_cases hnil : nodes = []
    · refine .inr (.inr ⟨m.nodeCounts, m.totalRequests, ?_⟩)
      simp only [step, add, if_pos hnil, bind, Except.bind, Except.ok.injEq] at h
      exact h.symm
    · left
      cases h₁ : m.addNodes nodes with
      | error e => simp [step, add, if_neg hnil, h₁, bind, Except.bind] at h
      | ok m₁ =>
        simp only [step, add, if_neg hnil, h₁, bind, Except.bind, Except.ok.injEq] at h
        exact ⟨nodes, m₁, rfl, h₁, h.symm⟩
  | remove node =>
    simp only [step, remove, Except.ok.injEq] at h
    split at h
    · exact .inr (.inr ⟨m.nodeCounts, m.totalRequests, h.symm⟩)
    · exact .inr (.inl ⟨node, rfl, h.symm⟩)
  | get key =>
    right
    right
    simp only [step, get, Except.ok.injEq] at h
    split at h
    · exact ⟨m.nodeCounts, m.totalRequests, h.symm⟩
    · split at h
      · exact ⟨m.nodeCounts, m.totalRequests, h.symm⟩
      · exact ⟨_, _, h.symm⟩

lemma Inv.step (hm : Inv m) (h : m.step op = .ok m') : Inv m' := by
  rcases step_cases h with ⟨nodes, m₁, -, hadd, rfl⟩ | ⟨node, -, rfl⟩ | ⟨counts, total, rfl⟩
  · have h₁ : Linked m₁ :=
      addNodes_induction (fun m m' node hm _ _ => hm.addNodeLocked) hm.toLinked hadd
    have hnodup : m₁.keys.mergeSort.Nodup := (mergeSort_perm _ _).nodup_iff.2 h₁.nodup
    have hsorted : m₁.keys.mergeSort.Pairwise (· ≤ ·) := pairwise_mergeSort' _ _
    refine ⟨⟨hnodup, fun x => ?_, h₁.owner, h₁.points⟩, ?_⟩
    · rw [mem_mergeSort]
      exact h₁.mem_keys x
    · exact (hsorted.and hnodup).imp fun hab => lt_of_le_of_ne hab.1 hab.2
  · exact hm.removeNodeLocked node
  · exact ⟨⟨hm.nodup, hm.mem_keys, hm.owner, hm.points⟩, hm.sorted⟩

/-- An induction over the calls of a run. -/
lemma run_induction (hstep : ∀ m m' op, P m → op ∈ ops → m.step op = .ok m' → P m') (hm : P m)
    (h : m.run ops = .ok m') : P m' :=
  Ensures.foldlM hm (fun op hop m hm m' => hstep m m' op hm hop) m' h

/-- **The ring is well formed after every run**: `keys` is strictly increasing and the domain
of `hashMap`, and `nodeHashes` is `hashMap` by nodes. -/
theorem Inv.run (hm : Inv m) (h : m.run ops = .ok m') : Inv m' :=
  run_induction (fun _ _ _ hm _ h => hm.step h) hm h

lemma run_config {config : ConHashConfig}
    (h : (newConsistentHash config).run ops = .ok m) : m.config = config := by
  refine run_induction (P := fun m => m.config = config) (fun m m' op hm _ h => ?_) rfl h
  rcases step_cases h with ⟨nodes, m₁, -, hadd, rfl⟩ | ⟨node, -, rfl⟩ | ⟨counts, total, rfl⟩
  · change m₁.config = config
    refine addNodes_induction (P := fun m => m.config = config) (fun m m' node hm _ _ hnew h => ?_)
      hm hadd
    obtain ⟨hashes, hconfig, -⟩ := addNodeLocked_new hnew h
    exact hconfig.trans hm
  · unfold removeNodeLocked
    split
    · exact hm
    · exact hm
  · exact hm

/-! ## Rings without collisions -/

end ConsistentHashMap

/-- No two of the nodes have a virtual point in common. -/
def CollisionFree (config : ConHashConfig) (N : Set String) : Prop :=
  ∀ a ∈ N, ∀ b ∈ N, a ≠ "" → b ≠ "" → a ≠ b → ∀ h, config.IsPoint a h → ¬ config.IsPoint b h

/-- The nodes that a call adds. -/
def ConsistentHashMap.Op.addsIn (N : Set String) : ConsistentHashMap.Op → Prop
  | .add nodes => ∀ node ∈ nodes, node ∈ N
  | _ => True

namespace ConsistentHashMap

/-- Every member has all of its points. -/
structure Full (N : Set String) (m : ConsistentHashMap) : Prop where
  linked : Linked m
  member : ∀ n ∈ m.nodeHashes, n ∈ N ∧ n ≠ ""
  full : ∀ n hs, m.nodeHashes.lookup n = some hs → ∀ h, m.config.IsPoint n h → h ∈ hs
  free : CollisionFree m.config N

variable {N : Set String} {m m' : ConsistentHashMap} {node : String} {config : ConHashConfig}

lemma Full.addNodeLocked (hm : Full N m) (hN : node ∈ N) (hne : node ≠ "")
    (hnew : node ∉ m.nodeHashes) (h : m.addNodeLocked node m.config.defaultReplicas = .ok m') :
    Full N m' := by
  obtain ⟨hashes, hconfig, -, hnodes, -, -, hmem⟩ := addNodeLocked_new hnew h
  refine ⟨hm.linked.addNodeLocked hnew h, fun n hn => ?_, fun n hs hn x hx => ?_, ?_⟩
  · rw [hnodes, mem_insert] at hn
    rcases hn with rfl | hn
    · exact ⟨hN, hne⟩
    · exact hm.member n hn
  · rw [hconfig] at hx
    rw [hnodes] at hn
    rcases eq_or_ne n node with rfl | hne'
    · rw [lookup_insert] at hn
      cases hn
      refine (hmem x).2 ⟨fun htaken => ?_, hx⟩
      -- the owner of a point that is taken would be another member
      obtain ⟨n', hn'⟩ := isSome_iff_exists.1 (lookup_isSome.2 htaken)
      obtain ⟨hs', hs'n, hx'⟩ := (hm.linked.owner x n').1 hn'
      have hmem' : n' ∈ m.nodeHashes := by
        rw [← lookup_isSome, hs'n]
        rfl
      have hne'' : n ≠ n' := by
        rintro rfl
        exact hnew hmem'
      exact hm.free n hN n' (hm.member n' hmem').1 hne (hm.member n' hmem').2 hne'' x hx
        (hm.linked.points n' hs' hs'n x hx')
    · rw [lookup_insert_ne hne'] at hn
      exact hm.full n hs hn x hx
  · rw [hconfig]
    exact hm.free

lemma Full.removeNodeLocked (hm : Full N m)
    (hinv : Inv m) (node : String) : Full N (m.removeNodeLocked node).1 := by
  have hlinked := (hinv.removeNodeLocked node).toLinked
  unfold ConsistentHashMap.removeNodeLocked at hlinked ⊢
  split at hlinked
  · exact hm
  · refine ⟨hlinked, fun n hn => ?_, fun n hs hn x hx => ?_, hm.free⟩
    · exact hm.member n (mem_erase.1 hn).2
    · rcases eq_or_ne n node with rfl | hne
      · rw [lookup_erase] at hn
        cases hn
      · rw [lookup_erase_ne hne] at hn
        exact hm.full n hs hn x hx

lemma Full.step (hm : Full N m) (hinv : Inv m)
    {op : Op} (hop : op.addsIn N) (h : m.step op = .ok m') : Full N m' := by
  have hlinked := (hinv.step h).toLinked
  rcases step_cases h with ⟨nodes, m₁, rfl, hadd, rfl⟩ | ⟨node, -, rfl⟩ | ⟨counts, total, rfl⟩
  · have h₁ : Full N m₁ := addNodes_induction
      (fun m m' node hm hmem => hm.addNodeLocked (hop node hmem)) hm hadd
    exact ⟨hlinked, h₁.member, h₁.full, h₁.free⟩
  · exact hm.removeNodeLocked hinv node
  · exact ⟨hlinked, hm.member, hm.full, hm.free⟩

lemma full_new (hfree : CollisionFree config N) : Full N (newConsistentHash config) where
  linked := (inv_new config).toLinked
  member n hn := by simp [newConsistentHash] at hn
  full n hs hn := by simp [newConsistentHash] at hn
  free := hfree

lemma run_full (hfree : CollisionFree config N)
    {ops : List Op} (hops : ∀ op ∈ ops, op.addsIn N)
    (h : (newConsistentHash config).run ops = .ok m) : Inv m ∧ Full N m :=
  run_induction (P := fun m => Inv m ∧ Full N m)
    (fun _ _ op hm hmem h => ⟨hm.1.step h, hm.2.step hm.1 (hops op hmem) h⟩)
    ⟨inv_new config, full_new hfree⟩ h

/-- Then the members and the configuration say who owns a point. -/
lemma Full.owner_iff (hm : Full N m) (h : ℕ)
    (n : String) :
    m.hashMap.lookup h = some n ↔ n ∈ m.nodeHashes ∧ m.config.IsPoint n h := by
  rw [hm.linked.owner]
  constructor
  · rintro ⟨hs, hn, hmem⟩
    refine ⟨?_, hm.linked.points n hs hn h hmem⟩
    rw [← lookup_isSome, hn]
    rfl
  · rintro ⟨hn, hpoint⟩
    obtain ⟨hs, hs'⟩ := isSome_iff_exists.1 (lookup_isSome.2 hn)
    exact ⟨hs, hs', hm.full n hs hs' h hpoint⟩

/-- `Get` only depends on the configuration and on who owns each point. -/
lemma get_congr {m₁ m₂ : ConsistentHashMap} (h₁ : Inv m₁) (h₂ : Inv m₂)
    (hconfig : m₁.config = m₂.config)
    (howner : ∀ h, m₁.hashMap.lookup h = m₂.hashMap.lookup h) (key : String) :
    (m₁.get key).2 = (m₂.get key).2 := by
  have hkeys : m₁.keys = m₂.keys := by
    refine Search.eq_of_mem_iff h₁.sorted h₂.sorted fun x => ?_
    rw [h₁.mem_keys, h₂.mem_keys, ← lookup_isSome, ← lookup_isSome, howner]
  have hfind : ∀ hash, m₁.find hash = m₂.find hash := by
    intro hash
    unfold find
    rw [hkeys]
    exact congrArg (·.getD "") (howner _)
  unfold get
  rw [hkeys, hconfig]
  split
  · rfl
  · split
    · rfl
    · exact hfind _

/-- A key that hashes to a point of the ring belongs to the owner of the point. -/
lemma get_of_point (hm : Inv m) {key : String} (hkey : key ≠ "")
    (howner : m.hashMap.lookup (m.config.hashFunc key).toNat = some node) :
    (m.get key).2 = node := by
  have hmem : (m.config.hashFunc key).toNat ∈ m.keys := by
    rw [hm.mem_keys, ← lookup_isSome, howner]
    rfl
  have hidx := Search.search_getElem_of_mem (hm.sorted.imp le_of_lt) hmem
  have hlt := (List.getElem?_eq_some_iff.1 hidx).1
  unfold get
  rw [if_neg hkey, if_neg (ne_nil_of_mem hmem)]
  dsimp only [find]
  rw [if_neg (Nat.ne_of_lt hlt), hidx, getD_some, howner, getD_some]

/-- Adding a node to a ring of which it is no member succeeds, takes all of its points that
are free, and leaves the others as they are. -/
lemma step_add_new (hm : Inv m) (hne : node ≠ "")
    (hnew : node ∉ m.nodeHashes) (hreplicas : 0 ≤ m.config.defaultReplicas) :
    ∃ m', m.step (.add [node]) = .ok m' ∧ Inv m' ∧ m'.config = m.config ∧
      (∀ n, n ∈ m'.nodeHashes ↔ n = node ∨ n ∈ m.nodeHashes) ∧
      (∀ h n, m.hashMap.lookup h = some n → m'.hashMap.lookup h = some n) ∧
      ∀ h, h ∉ m.hashMap → m.config.IsPoint node h → m'.hashMap.lookup h = some node := by
  obtain ⟨m₁, h₁⟩ : ∃ m₁, m.addNodeLocked node m.config.defaultReplicas = .ok m₁ := by
    unfold addNodeLocked
    rw [if_neg hnew, if_neg (not_lt.2 hreplicas)]
    exact ⟨_, rfl⟩
  have hstep : m.step (.add [node]) = .ok { m₁ with keys := m₁.keys.mergeSort } := by
    simp [step, add, addNodes, hne, h₁, bind, Except.bind, pure, Except.pure]
  obtain ⟨hashes, hconfig, -, hnodes, -, hlookup, hmem⟩ := addNodeLocked_new hnew h₁
  refine ⟨_, hstep, hm.step hstep, hconfig, fun n => ?_, fun h n hn => ?_, fun h hfree hp => ?_⟩
  · rw [hnodes, mem_insert]
  · have hnot : h ∉ hashes := by
      intro hmem'
      rw [lookup_eq_none.2 ((hmem h).1 hmem').1] at hn
      cases hn
    rw [hlookup, if_neg hnot, hn]
  · rw [hlookup, if_pos ((hmem h).2 ⟨hfree, hp⟩)]

/-- With a common point of two nodes, the one that is added first owns it. -/
lemma get_of_collision (config : ConHashConfig) {a b : String} (ha : a ≠ "") (hb : b ≠ "")
    (hab : a ≠ b) {i : ℕ} (hi : (i : ℤ) < config.defaultReplicas) :
    ∃ m, (newConsistentHash config).run [.add [a], .add [b]] = .ok m ∧
      (∀ n, n ∈ m.nodeHashes ↔ n = a ∨ n = b) ∧
      ∀ key ≠ "", (config.hashFunc key).toNat = config.point a i → (m.get key).2 = a := by
  have hreplicas : 0 ≤ config.defaultReplicas := by omega
  obtain ⟨m₁, h₁, hinv₁, hconfig₁, hmem₁, -, hown₁⟩ :=
    step_add_new (inv_new config) ha (by simp [newConsistentHash]) hreplicas
  have hempty : ∀ n, n ∉ (newConsistentHash config).nodeHashes := by simp [newConsistentHash]
  have hnew : b ∉ m₁.nodeHashes := by
    rw [hmem₁, not_or]
    exact ⟨hab.symm, hempty b⟩
  have hc₁ : m₁.config = config := hconfig₁
  obtain ⟨m₂, h₂, hinv₂, hconfig₂, hmem₂, hkeep₂, -⟩ :=
    step_add_new hinv₁ hb hnew (by rw [hc₁]; exact hreplicas)
  refine ⟨m₂, ?_, fun n => ?_, fun key hkey hhash => ?_⟩
  · simp [run, h₁, h₂, bind, Except.bind, pure, Except.pure]
  · rw [hmem₂, hmem₁, or_comm]
    simp [hempty n]
  · refine get_of_point hinv₂ hkey ?_
    rw [hconfig₂, hc₁, hhash]
    exact hkeep₂ _ _ (hown₁ _ (by simp [newConsistentHash]) ⟨i, hi, rfl⟩)

end ConsistentHashMap

open ConsistentHashMap

/-- **The members determine the owners exactly without collisions.** For two rings with one
configuration, after any calls that add nodes of `N`, equal members give every key the same
owner; and this holds exactly if no two nodes of `N` have a virtual point in common.

**Proof sketch.** Without collisions every member has all of its points, so `hashMap` is the
same function in both rings, and `keys` is its domain in increasing order. A common point of
`a` and `b` belongs to the one that was added first, and the text of the point itself is a key
with that hash. -/
theorem owners_agree_iff (config : ConHashConfig) (N : Set String) :
    (∀ (ops₁ ops₂ : List Op) (m₁ m₂ : ConsistentHashMap),
      (∀ op ∈ ops₁ ++ ops₂, op.addsIn N) →
      (newConsistentHash config).run ops₁ = .ok m₁ →
      (newConsistentHash config).run ops₂ = .ok m₂ →
      (∀ node, node ∈ m₁.nodeHashes ↔ node ∈ m₂.nodeHashes) →
      ∀ key, (m₁.get key).2 = (m₂.get key).2) ↔
    CollisionFree config N := by
  constructor
  · rintro hagree a ha b hb hane hbne hab h ⟨i, hi, rfl⟩ ⟨j, hj, hpoint⟩
    obtain ⟨m₁, h₁, hmem₁, hget₁⟩ := get_of_collision config hane hbne hab hi
    obtain ⟨m₂, h₂, hmem₂, hget₂⟩ := get_of_collision config hbne hane hab.symm hj
    have hkey : a ++ "-" ++ toString i ≠ "" := by
      intro h
      have hlen := congrArg String.length h
      simp at hlen
    have hops : ∀ op ∈ [Op.add [a], .add [b]] ++ [.add [b], .add [a]], op.addsIn N := by
      intro op hop
      simp only [cons_append, nil_append, mem_cons, not_mem_nil, or_false] at hop
      rcases hop with rfl | rfl | rfl | rfl
      · simpa [Op.addsIn] using ha
      · simpa [Op.addsIn] using hb
      · simpa [Op.addsIn] using hb
      · simpa [Op.addsIn] using ha
    have heq := hagree _ _ m₁ m₂ hops h₁ h₂
      (fun n => by rw [hmem₁, hmem₂, or_comm]) (a ++ "-" ++ toString i)
    rw [hget₁ _ hkey rfl, hget₂ _ hkey hpoint.symm] at heq
    exact hab heq
  · intro hfree ops₁ ops₂ m₁ m₂ hops h₁ h₂ hmembers key
    obtain ⟨hinv₁, hfull₁⟩ := run_full hfree (fun op hop => hops op (mem_append_left _ hop)) h₁
    obtain ⟨hinv₂, hfull₂⟩ := run_full hfree (fun op hop => hops op (mem_append_right _ hop)) h₂
    have hconfig : m₁.config = m₂.config := (run_config h₁).trans (run_config h₂).symm
    refine get_congr hinv₁ hinv₂ hconfig (fun h => ?_) key
    refine ext fun n => ?_
    rw [hfull₁.owner_iff, hfull₂.owner_iff, hmembers, hconfig]

/-- A ring with one point per node, and all of them in the same place. -/
def constantHash : ConHashConfig := { defaultReplicas := 1, hashFunc := fun _ => 0 }

/-- **Two peers that disagree.** One adds `a` and then `b`, the other `b` and then `a`. Both
have the members `a` and `b`, and they give the same key to different nodes. -/
theorem owners_disagree :
    ∃ m₁ m₂ : ConsistentHashMap,
      (newConsistentHash constantHash).run [.add ["a"], .add ["b"]] = .ok m₁ ∧
      (newConsistentHash constantHash).run [.add ["b"], .add ["a"]] = .ok m₂ ∧
      (∀ node, node ∈ m₁.nodeHashes ↔ node ∈ m₂.nodeHashes) ∧
      (m₁.get "k").2 = "a" ∧ (m₂.get "k").2 = "b" := by
  obtain ⟨m₁, h₁, hmem₁, hget₁⟩ := get_of_collision constantHash (a := "a") (b := "b")
    (by decide) (by decide) (by decide) (i := 0) (by decide)
  obtain ⟨m₂, h₂, hmem₂, hget₂⟩ := get_of_collision constantHash (a := "b") (b := "a")
    (by decide) (by decide) (by decide) (i := 0) (by decide)
  refine ⟨m₁, m₂, h₁, h₂, fun n => ?_, hget₁ _ (by decide) rfl, hget₂ _ (by decide) rfl⟩
  rw [hmem₁, hmem₂, or_comm]

end Yukino.Caches
