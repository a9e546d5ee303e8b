import Yukino.Cache.ConsistentHash

set_option autoImplicit false

/-!
# Which keys change their node

When a node is added to the ring or removed from it, the other points stay where they are. So a key
changes its node only if the first point from its hash on is one of those that came or went.

## Main definitions

* `First` — the first point from a hash on, around the ring.

## Main results

* `ConsistentHashMap.Inv.find_first` — `Get` finds the owner of the first point.
* `ConsistentHashMap.point_of_get_ne` — two rings of which one has all points of the other.
* `minimal_disruption` — what `Add` and `Remove` change.
-/

namespace Yukino.Caches

open Outcome List AList Option

/-- The point of `K` that comes first from the hash on, with the least point after the largest. -/
def First (K : List ℕ) (hash p : ℕ) : Prop :=
  p ∈ K ∧ ∀ q ∈ K, hash ≤ p ∧ (hash ≤ q → p ≤ q) ∨ p < hash ∧ q < hash ∧ p ≤ q

lemma First.unique {K : List ℕ} {hash p q : ℕ} (hp : First K hash p) (hq : First K hash q) :
    p = q := by
  have h := hp.2 q hq.1
  have h' := hq.2 p hp.1
  omega

lemma First.of_subset {K K' : List ℕ} {hash p : ℕ} (h : First K' hash p) (hsub : K ⊆ K')
    (hp : p ∈ K) : First K hash p :=
  ⟨hp, fun q hq => h.2 q (hsub hq)⟩

namespace ConsistentHashMap

variable {m m' : ConsistentHashMap} {key node : String}

/-- `Get` finds the owner of the first point.

**Proof sketch.** Before the index that `sort.Search` returns the points are less than the hash, and
from it on they are not. If there is such an index, its point is the least of the latter; else all
points are less than the hash and the first one is the least of all. -/
lemma Inv.find_first (hm : Inv m) (hne : m.keys ≠ []) (hash : ℕ) :
    ∃ p, First m.keys hash p ∧ m.hashMap.lookup p = some (m.find hash) := by
  have hpos := length_pos_iff.2 hne
  have hsorted := pairwise_iff_getElem.1 hm.sorted
  have hget : ∀ i (hi : i < m.keys.length), m.keys[i]?.getD 0 = m.keys[i] := by
    intro i hi
    simp [hi]
  have hmono : Search.Monotone (fun i => decide (hash ≤ m.keys[i]?.getD 0)) m.keys.length := by
    intro i j hij hj hi
    rw [decide_eq_true_eq, hget _ (by omega)] at hi
    rw [decide_eq_true_eq, hget _ hj]
    rcases eq_or_lt_of_le hij with rfl | hlt
    · exact hi
    · exact hi.trans (hsorted i j (by omega) hj hlt).le
  obtain ⟨hle, hbelow, habove⟩ := Search.search_spec hmono
  unfold find
  dsimp only
  set idx := Search.search m.keys.length fun i => decide (hash ≤ m.keys[i]?.getD 0)
  set k := if idx = m.keys.length then 0 else idx with hk
  have hlt : k < m.keys.length := by
    rw [hk]
    split_ifs <;> omega
  rw [hget k hlt]
  refine ⟨m.keys[k], ⟨getElem_mem hlt, fun q hq => ?_⟩, ?_⟩
  · obtain ⟨j, hj, rfl⟩ := getElem_of_mem hq
    have hkj : k ≤ j → m.keys[k] ≤ m.keys[j] := by
      intro h
      rcases eq_or_lt_of_le h with heq | h
      · simp [heq]
      · exact (hsorted k j hlt hj h).le
    have hbelow' : ∀ i (hi : i < m.keys.length), i < idx → m.keys[i] < hash := by
      intro i hi h
      have := hbelow i h
      rw [hget i hi] at this
      simpa using this
    by_cases hidx : idx = m.keys.length
    · rw [if_pos hidx] at hk
      exact .inr ⟨hbelow' k hlt (by omega), hbelow' j hj (by omega), hkj (by omega)⟩
    · rw [if_neg hidx] at hk
      have hhash := habove k (by omega) hlt
      rw [hget k hlt, decide_eq_true_eq] at hhash
      by_contra hcon
      have := hbelow' j hj (by omega)
      omega
  · have hmem := (hm.mem_keys m.keys[k]).1 (getElem_mem hlt)
    obtain ⟨n, hn⟩ := isSome_iff_exists.1 (lookup_isSome.2 hmem)
    simp [hn]

lemma get_eq (hkey : key ≠ "") (hne : m.keys ≠ []) :
    (m.get key).2 = m.find (m.config.hashFunc key).toNat := by
  unfold get
  rw [if_neg hkey, if_neg hne]

/-- If one ring has all points of another one, a key with different nodes in them belongs to a point
that the other one does not have. -/
lemma point_of_get_ne (hm : Inv m) (hm' : Inv m') (hconfig : m'.config = m.config)
    (hsub : ∀ x n, m.hashMap.lookup x = some n → m'.hashMap.lookup x = some n)
    (hne : (m'.get key).2 ≠ (m.get key).2) :
    ∃ p, p ∉ m.hashMap ∧ m'.hashMap.lookup p = some (m'.get key).2 := by
  have hkey : key ≠ "" := by
    rintro rfl
    exact hne (by simp [get])
  have hkeys : m.keys ⊆ m'.keys := by
    intro x hx
    rw [hm.mem_keys, ← lookup_isSome, isSome_iff_exists] at hx
    obtain ⟨n, hn⟩ := hx
    rw [hm'.mem_keys, ← lookup_isSome, hsub x n hn]
    rfl
  have hnonempty' : m'.keys ≠ [] := by
    intro hnil
    rw [hnil, subset_nil] at hkeys
    exact hne (by simp [get, hnil, hkeys])
  obtain ⟨p, hfirst, hlookup⟩ := hm'.find_first hnonempty' (m'.config.hashFunc key).toNat
  rw [get_eq hkey hnonempty'] at hne ⊢
  refine ⟨p, fun hp => hne ?_, hlookup⟩
  rw [← hm.mem_keys] at hp
  have hnonempty := ne_nil_of_mem hp
  obtain ⟨q, hfirst', hlookup'⟩ := hm.find_first hnonempty (m.config.hashFunc key).toNat
  rw [hconfig] at hfirst hlookup ⊢
  obtain rfl := (hfirst.of_subset hkeys hp).unique hfirst'
  rw [get_eq hkey hnonempty]
  exact some.inj (hlookup.symm.trans (hsub _ _ hlookup'))

/-- `Add` of one node gives it points that were free, and leaves the others. -/
lemma lookup_add (h : m.step (.add [node]) = .ok m') :
    m'.config = m.config ∧ ∀ x, m'.hashMap.lookup x = m.hashMap.lookup x ∨
      x ∉ m.hashMap ∧ m'.hashMap.lookup x = some node := by
  by_cases hempty : node = ""
  · simp only [hempty] at h
    cases h
    exact ⟨rfl, fun x => .inl rfl⟩
  cases h₁ : m.addNodeLocked node m.config.defaultReplicas with
  | error e => simp [step, add, addNodes, hempty, h₁, bind, Except.bind] at h
  | ok m₁ =>
    simp only [step, add, addNodes, foldlM_cons, if_neg hempty, h₁] at h
    cases h
    by_cases hnew : node ∈ m.nodeHashes
    · rw [addNodeLocked, if_pos hnew] at h₁
      cases h₁
      exact ⟨rfl, fun x => .inl rfl⟩
    · obtain ⟨hashes, hconfig, -, -, -, hlookup, hmem⟩ := addNodeLocked_new hnew h₁
      refine ⟨hconfig, fun x => ?_⟩
      rw [hlookup]
      split_ifs with hx
      · exact .inr ⟨((hmem x).1 hx).1, rfl⟩
      · exact .inl rfl

/-- What `Add` of one node changes. -/
lemma Inv.get_add (hm : Inv m) (h : m.step (.add [node]) = .ok m')
    (hne : (m'.get key).2 ≠ (m.get key).2) : (m'.get key).2 = node := by
  obtain ⟨hconfig, hlookup⟩ := lookup_add h
  have hsub : ∀ x n, m.hashMap.lookup x = some n → m'.hashMap.lookup x = some n := by
    intro x n hn
    rcases hlookup x with hx | ⟨hx, -⟩
    · rw [hx, hn]
    · rw [lookup_eq_none.2 hx] at hn
      cases hn
  obtain ⟨p, hp, hget⟩ := point_of_get_ne hm (hm.step h) hconfig hsub hne
  rcases hlookup p with hx | ⟨-, hx⟩
  · rw [hx, lookup_eq_none.2 hp] at hget
    cases hget
  · exact some.inj (hget.symm.trans hx)

/-- What `Remove` changes. -/
lemma Inv.get_remove (hm : Inv m) (hne : ((m.remove node).1.get key).2 ≠ (m.get key).2) :
    (m.get key).2 = node := by
  have hstep : m.step (.remove node) = .ok (m.remove node).1 := rfl
  have hinv := hm.step hstep
  unfold remove at hne hinv
  split_ifs at hne hinv with hempty
  · exact absurd rfl hne
  unfold ConsistentHashMap.removeNodeLocked at hne hinv
  cases hnode : m.nodeHashes.lookup node with
  | none =>
    rw [hnode] at hne
    exact absurd rfl hne
  | some hashes =>
    rw [hnode] at hne hinv
    have hlookup := lookup_foldl_erase m.hashMap hashes
    have hsub : ∀ x n, (hashes.foldl (fun t hash => t.erase hash) m.hashMap).lookup x = some n →
        m.hashMap.lookup x = some n := by
      intro x n hn
      rw [hlookup] at hn
      split_ifs at hn
      exact hn
    obtain ⟨p, hp, hget⟩ := point_of_get_ne hinv hm rfl hsub hne.symm
    -- the point went with the node, so it was one of the node's
    have hmem : p ∈ hashes := by
      by_contra hnot
      rw [← lookup_eq_none, hlookup, if_neg hnot, hget] at hp
      cases hp
    have howner := (hm.owner p node).2 ⟨hashes, hnode, hmem⟩
    exact some.inj (hget.symm.trans howner)

/-- The members have names. -/
lemma name_ne_empty {config : ConHashConfig} {ops : List Op}
    (h : (newConsistentHash config).run ops = .ok m) : "" ∉ m.nodeHashes := by
  refine run_induction (P := fun m => "" ∉ m.nodeHashes) (fun m m' op hm _ h => ?_)
    (notMem_empty _) h
  rcases step_cases h with ⟨nodes, m₁, -, hadd, rfl⟩ | ⟨node, -, rfl⟩ | ⟨counts, total, rfl⟩
  · change "" ∉ m₁.nodeHashes
    refine addNodes_induction (P := fun m => "" ∉ m.nodeHashes)
      (fun m m' node hm _ hne hnew h => ?_) hm hadd
    obtain ⟨hashes, -, -, hnodes, -⟩ := addNodeLocked_new hnew h
    rw [hnodes, mem_insert]
    rintro (heq | hmem)
    · exact hne heq.symm
    · exact hm hmem
  · unfold removeNodeLocked
    split
    · exact hm
    · rw [mem_erase]
      exact fun hmem => hm hmem.2
  · exact hm

end ConsistentHashMap

open ConsistentHashMap

/-- **Minimal disruption.** After every run from the empty ring, `keys` is strictly increasing and
the domain of `hashMap`, and every point is in the list of exactly one member. `Add` changes the
node of a key only to the node that is added, `Remove` only that of a key of the node that is
removed, and a key that is not empty has a node if some member has a point. -/
theorem minimal_disruption {config : ConHashConfig} {ops : List Op} {m : ConsistentHashMap}
    (h : (newConsistentHash config).run ops = .ok m) :
    m.keys.Pairwise (· < ·) ∧ (∀ x, x ∈ m.keys ↔ x ∈ m.hashMap) ∧
      (∀ x, x ∈ m.keys ↔ ∃ n hs, m.nodeHashes.lookup n = some hs ∧ x ∈ hs) ∧
      (∀ x n n' hs hs', m.nodeHashes.lookup n = some hs → m.nodeHashes.lookup n' = some hs' →
        x ∈ hs → x ∈ hs' → n = n') ∧
      (∀ node m', m.step (.add [node]) = .ok m' → ∀ key,
        (m'.get key).2 ≠ (m.get key).2 → (m'.get key).2 = node) ∧
      (∀ node key, ((m.remove node).1.get key).2 ≠ (m.get key).2 → (m.get key).2 = node) ∧
      ∀ key n hs, key ≠ "" → m.nodeHashes.lookup n = some hs → hs ≠ [] → (m.get key).2 ≠ "" := by
  have hm : Inv m := (inv_new config).run h
  have hkeys : ∀ x, x ∈ m.keys ↔ ∃ n hs, m.nodeHashes.lookup n = some hs ∧ x ∈ hs := by
    intro x
    simp only [hm.mem_keys, ← lookup_isSome, isSome_iff_exists, hm.owner]
  refine ⟨hm.sorted, hm.mem_keys, hkeys, fun x n n' hs hs' hn hn' hx hx' => ?_,
    fun node m' hadd key => hm.get_add hadd, fun node key => hm.get_remove,
    fun key n hs hkey hn hhs hget => ?_⟩
  · have howner := (hm.owner x n).2 ⟨hs, hn, hx⟩
    exact some.inj (howner.symm.trans ((hm.owner x n').2 ⟨hs', hn', hx'⟩))
  · obtain ⟨x, hx⟩ := exists_mem_of_ne_nil hs hhs
    have hne := ne_nil_of_mem ((hkeys x).2 ⟨n, hs, hn, hx⟩)
    obtain ⟨p, -, hp⟩ := hm.find_first hne (m.config.hashFunc key).toNat
    rw [get_eq hkey hne] at hget
    rw [hget, hm.owner] at hp
    obtain ⟨hs', hempty, -⟩ := hp
    exact name_ne_empty h (lookup_isSome.1 (by rw [hempty]; rfl))

/-- A ring with two points per node, at the sums of the characters of their texts. -/
def sumHash : ConHashConfig :=
  { defaultReplicas := 2, hashFunc := fun s => .ofNat (s.toList.map Char.toNat).sum }

/-- The ring of the node `a`. -/
def ringOfA : ConsistentHashMap where
  config := sumHash
  keys := [190, 191]
  hashMap := insert 191 "a" (insert 190 "a" ∅)
  nodeHashes := insert "a" [190, 191] ∅
  nodeCounts := insert "a" 0 ∅

/-- The ring after `b` is added, one point of which was taken. -/
def ringOfAB : ConsistentHashMap where
  config := sumHash
  keys := [190, 191, 192]
  hashMap := insert 192 "b" ringOfA.hashMap
  nodeHashes := insert "b" [192] ringOfA.nodeHashes
  nodeCounts := insert "b" 0 ringOfA.nodeCounts

/-- `b` takes the key `b-1` over from `a`, and a key of `a` stays there when `b` is removed. -/
theorem minimal_disruption_two :
    (newConsistentHash sumHash).run [.add ["a"], .add ["b"]] = .ok ringOfAB ∧
      (ringOfA.get "b-1").2 = "a" ∧ (ringOfAB.get "b-1").2 = "b" ∧
      ((ringOfAB.remove "b").1.get "b-1").2 = "a" ∧
      ((ringOfAB.remove "b").1.get "a-1").2 = "a" := by
  have ha : (newConsistentHash sumHash).step (.add ["a"]) =
      .ok { ringOfA with keys := mergeSort [190, 191] } := rfl
  have hb : ringOfA.step (.add ["b"]) = .ok { ringOfAB with keys := mergeSort [190, 191, 192] } :=
    rfl
  rw [mergeSort_of_pairwise (by decide)] at ha hb
  have hA : (newConsistentHash sumHash).run [.add ["a"]] = .ok ringOfA :=
    bind_eq_ok.2 ⟨_, ha, rfl⟩
  have hAB : (newConsistentHash sumHash).run [.add ["a"], .add ["b"]] = .ok ringOfAB :=
    bind_eq_ok.2 ⟨_, ha, bind_eq_ok.2 ⟨_, hb, rfl⟩⟩
  obtain ⟨-, -, -, -, hadd, -⟩ := minimal_disruption hA
  obtain ⟨-, -, -, -, -, hremove, -⟩ := minimal_disruption hAB
  refine ⟨hAB, by decide +kernel, hadd "b" _ hb "b-1" (by decide +kernel), by decide +kernel, ?_⟩
  have hkeep : (ringOfAB.get "a-1").2 = "a" := by decide +kernel
  refine (not_imp_comm.1 (hremove "b" "a-1") ?_).trans hkeep
  rw [hkeep]
  decide

/-- The empty key has no node. -/
theorem empty_key_unowned :
    ∃ m, (newConsistentHash constantHash).run [.add ["a"]] = .ok m ∧
      m.nodeHashes.lookup "a" = some [0] ∧ (m.get "").2 = "" :=
  ⟨_, rfl, rfl, rfl⟩

end Yukino.Caches
