import Yukino.Lsm.Insertion

set_option autoImplicit false

/-!
# Which keys the search in a level finds

`levelBinarySearch` takes the node whose `startKey` is below the key and whose `endKey` is not. The
`startKey` is a separator below the first key of the node. It may be below the last keys of the
node in front, so a middle node can be taken for a key of an earlier node.

## Main definitions

* `Tree.probes` — the positions that a binary search for a position looks at.

## Main results

* `Tree.levelBinarySearch_eq_some_iff` — when the search ends at a node.
* `Tree.finds_owner_iff` — a key is found in the node that stores it if and only if the
  separator of that node is below it and no later node on the way has a separator below it.
-/

namespace Yukino.Lsm

open List

open SortedAssoc (Ascending)

namespace Tree

/-- The positions that a binary search for the position `i` looks at, between `start` and `stop`. -/
def probes (i : ℕ) : ℕ → ℕ → ℕ → List ℕ
  | 0, _, _ => []
  | rounds + 1, start, stop =>
    if stop ≤ start then [] else
    let mid := start + (stop - 1 - start) / 2
    if mid < i then mid :: probes i rounds (mid + 1) stop
    else if i < mid then mid :: probes i rounds start mid
    else [mid]

section Search

variable {nodes : List Node} {key : Bytes} {rounds start stop i : ℕ} {n : Node}

/-- The search takes a node in front of its end. -/
lemma exists_of_levelBinarySearch_eq_some
    (h : levelBinarySearch nodes key rounds start stop = some n) :
    ∃ j < stop, nodes[j]? = some n := by
  induction rounds generalizing start stop with
  | zero => cases h
  | succ rounds ih =>
    unfold levelBinarySearch at h
    split_ifs at h with hempty
    simp only at h
    split at h
    · cases h
    · next node hnode =>
      split_ifs at h
      · exact ih h
      · obtain ⟨j, hj, hget⟩ := ih h
        exact ⟨j, by omega, hget⟩
      · cases h
        exact ⟨_, by omega, hnode⟩

/-- **When the search ends at the node in position `i`**, if this is the first node whose `endKey`
is not below the key and the node is in no other position.

**Proof sketch.** By induction on the rounds. A middle node in front of `i` sends the search to
the right. A middle node behind `i` must send it to the left, for which the key must not be behind
its `startKey`: otherwise the search takes this node. -/
lemma levelBinarySearch_eq_some_iff (hi : nodes[i]? = some n)
    (hbefore : ∀ j m, j < i → nodes[j]? = some m → m.endKey < key)
    (hfrom : ∀ j m, i ≤ j → nodes[j]? = some m → key ≤ m.endKey)
    (hone : ∀ j, nodes[j]? = some n → j = i) (hstart : start ≤ i) (hstop : i < stop)
    (hlen : stop ≤ nodes.length) (hrounds : stop - start ≤ rounds) :
    levelBinarySearch nodes key rounds start stop = some n ↔
      n.startKey < key ∧ ∀ j ∈ probes i rounds start stop, i < j →
        ∀ m, nodes[j]? = some m → key ≤ m.startKey := by
  induction rounds generalizing start stop with
  | zero => omega
  | succ rounds ih =>
    unfold levelBinarySearch probes
    rw [if_neg (by omega), if_neg (by omega)]
    simp only
    have hmid : start + (stop - 1 - start) / 2 < nodes.length := by omega
    generalize hm : start + (stop - 1 - start) / 2 = mid at *
    have hget := getElem?_eq_getElem hmid
    rcases Nat.lt_trichotomy mid i with hlt | rfl | hgt
    · rw [hget]
      simp only [if_pos (hbefore mid _ hlt hget), if_pos hlt, forall_mem_cons]
      rw [ih (by omega) hstop hlen (by omega)]
      exact ⟨fun h => ⟨h.1, fun h' => absurd h' (by omega), h.2⟩, fun h => ⟨h.1, h.2.2⟩⟩
    · rw [hi, if_neg (lt_irrefl mid), if_neg (lt_irrefl mid)]
      simp only [if_neg (not_lt.2 (hfrom mid n le_rfl hi)), forall_mem_singleton,
        lt_irrefl, false_imp_iff, and_true]
      split_ifs with hkey
      · -- to the left of its position the node is not found again
        refine iff_of_false (fun h => ?_) (not_lt.2 hkey)
        obtain ⟨j, hj, hj'⟩ := exists_of_levelBinarySearch_eq_some h
        exact absurd (hone j hj') hj.ne
      · exact iff_of_true rfl (not_le.1 hkey)
    · rw [hget]
      simp only [if_neg (not_lt.2 (hfrom mid _ hgt.le hget)), if_neg (not_lt.2 hgt.le), if_pos hgt,
        forall_mem_cons]
      split_ifs with hkey
      · rw [ih hstart hgt hmid.le (by omega)]
        refine ⟨fun h => ⟨h.1, fun _ m hm' => ?_, h.2⟩, fun h => ⟨h.1, h.2.2⟩⟩
        rw [hget] at hm'
        cases hm'
        exact hkey
      · refine iff_of_false (fun h => ?_) fun h => hkey (h.2.1 hgt _ hget)
        exact absurd (hone mid (hget.trans h)) hgt.ne'

end Search

/-! ## Levels of consecutive runs -/

section Runs

variable {conf : Config} {level : ℕ} {runs : List (List KV)} {nodes : List Node} {key : Bytes}

/-- The keys of an earlier run are below those of a later one. -/
lemma lt_of_runs (hasc : Ascending runs.flatten) {i j : ℕ} {a b : List KV} (hij : i < j)
    (ha : runs[i]? = some a) (hb : runs[j]? = some b) {kv kv' : KV} (hkv : kv ∈ a)
    (hkv' : kv' ∈ b) : kv.1 < kv'.1 := by
  obtain ⟨hi, rfl⟩ := List.getElem?_eq_some_iff.1 ha
  obtain ⟨hj, rfl⟩ := List.getElem?_eq_some_iff.1 hb
  have hpairs := (pairwise_flatten.1 hasc).2
  exact pairwise_iff_getElem.1 hpairs i j hi hj hij kv hkv kv' hkv'

/-- **Which keys are found in the node that stores them.** A level has the nodes of non-empty runs
of pairs whose keys ascend from run to run. The search for a key of the run `i` returns the node
`i` if and only if the separator in front of the run is below the key, and no later node that the
binary search for the position `i` looks at has a separator below the key. -/
theorem finds_owner_iff (hne : ∀ run ∈ runs, run ≠ []) (hasc : Ascending runs.flatten)
    (hnodes : List.Forall₂ (fun run n => ∃ seq, nodeOf conf level seq run = .ok n) runs nodes)
    {i : ℕ} {run : List KV} {n : Node} (hrun : runs[i]? = some run) (hn : nodes[i]? = some n)
    {kv : KV} (hkv : kv ∈ run) :
    levelBinarySearch nodes kv.1 nodes.length 0 nodes.length = some n ↔
      (keyRange run).1 < kv.1 ∧ ∀ j ∈ probes i nodes.length 0 nodes.length, i < j →
        ∀ later, runs[j]? = some later → kv.1 ≤ (keyRange later).1 := by
  have hlen := hnodes.length_eq
  -- what is known of the node in a position
  have hat : ∀ (j : ℕ) r (m : Node), runs[j]? = some r → nodes[j]? = some m →
      r ≠ [] ∧ m.startKey = (keyRange r).1 ∧ m.endKey = lastKey [] r := by
    intro j r m hr hm
    obtain ⟨hj, rfl⟩ := List.getElem?_eq_some_iff.1 hr
    obtain ⟨hj', rfl⟩ := List.getElem?_eq_some_iff.1 hm
    obtain ⟨seq, hseq⟩ := List.Forall₂.get hnodes hj hj'
    have hr := hne _ (getElem_mem hj)
    obtain ⟨hstart, hend⟩ := Prod.mk.inj (range_nodeOf hr hseq)
    exact ⟨hr, hstart, hend⟩
  have hrunOf : ∀ (j : ℕ) m, nodes[j]? = some m → ∃ r, runs[j]? = some r := by
    intro j m hm
    obtain ⟨hj, -⟩ := List.getElem?_eq_some_iff.1 hm
    exact ⟨_, getElem?_eq_getElem (hlen ▸ hj)⟩
  have hrunAsc : Ascending run := (pairwise_flatten.1 hasc).1 run (mem_of_getElem? hrun)
  have hbefore : ∀ j m, j < i → nodes[j]? = some m → m.endKey < kv.1 := by
    intro j m hj hm
    obtain ⟨r, hr⟩ := hrunOf j m hm
    obtain ⟨hrne, -, hend⟩ := hat j r m hr hm
    obtain ⟨v, hv⟩ := lastKey_mem (p := []) hrne
    rw [hend]
    exact lt_of_runs hasc hj hr hrun hv hkv
  have hfrom : ∀ j m, i ≤ j → nodes[j]? = some m → kv.1 ≤ m.endKey := by
    intro j m hj hm
    obtain ⟨r, hr⟩ := hrunOf j m hm
    obtain ⟨hrne, -, hend⟩ := hat j r m hr hm
    rw [hend]
    rcases hj.eq_or_lt with rfl | hj
    · obtain rfl : run = r := Option.some.inj (hrun.symm.trans hr)
      exact Ascending.le_lastKey hrunAsc hkv []
    · obtain ⟨v, hv⟩ := lastKey_mem (p := []) hrne
      exact (lt_of_runs hasc hj hrun hr hkv hv).le
  have hone : ∀ j, nodes[j]? = some n → j = i := by
    intro j hj
    -- the last keys of two runs differ
    obtain ⟨r, hr⟩ := hrunOf j n hj
    obtain ⟨hrne, -, hend⟩ := hat j r n hr hj
    obtain ⟨hrunne, -, hend'⟩ := hat i run n hrun hn
    obtain ⟨v, hv⟩ := lastKey_mem (p := []) hrne
    obtain ⟨v', hv'⟩ := lastKey_mem (p := []) hrunne
    have heq : lastKey [] r = lastKey [] run := hend.symm.trans hend'
    rcases Nat.lt_trichotomy j i with hlt | heq' | hgt
    · exact absurd heq (lt_of_runs hasc hlt hr hrun hv hv').ne
    · exact heq'
    · exact absurd heq (lt_of_runs hasc hgt hrun hr hv' hv).ne'
  obtain ⟨hi, -⟩ := List.getElem?_eq_some_iff.1 hn
  rw [levelBinarySearch_eq_some_iff hn hbefore hfrom hone (Nat.zero_le i) hi le_rfl (by omega),
    (hat i run n hrun hn).2.1]
  refine and_congr_right fun _ => forall₂_congr fun j _ => forall_congr' fun _ => ?_
  constructor
  · intro h later hlater
    obtain ⟨hj, -⟩ := List.getElem?_eq_some_iff.1 hlater
    have hm := getElem?_eq_getElem (hlen ▸ hj : j < nodes.length)
    have hle := h _ hm
    rwa [(hat j later _ hlater hm).2.1] at hle
  · intro h m hm
    obtain ⟨r, hr⟩ := hrunOf j m hm
    rw [(hat j r m hr hm).2.1]
    exact h r hr

end Runs

/-- A configuration with the default values. -/
def defaults : Config :=
  newConfig 0 0 0 0 none

/-- Two runs: a key of the second one. -/
theorem finds_owner_iff_two : ∃ n₀ n₁,
    nodeOf defaults 1 1 [([97, 122], [1])] = .ok n₀ ∧ nodeOf defaults 1 2 [([98], [2])] = .ok n₁ ∧
    (levelBinarySearch [n₀, n₁] [98] 2 0 2 = some n₁ ↔
      (keyRange [([98], [2])]).1 < [98] ∧ ∀ j ∈ probes 1 2 0 2, 1 < j →
        ∀ later, [[(([97, 122], [1]) : KV)], [([98], [2])]][j]? = some later →
          [98] ≤ (keyRange later).1) := by
  obtain ⟨n₀, h₀, -⟩ := exists_nodeOf defaults 1 1 ([97, 122], [1]) []
  obtain ⟨n₁, h₁, -⟩ := exists_nodeOf defaults 1 2 ([98], [2]) []
  have hasc : Ascending [[(([97, 122], [1]) : KV)], [([98], [2])]].flatten := by
    unfold Ascending
    decide
  have hkv : (([98], [2]) : KV) ∈ [(([98], [2]) : KV)] := mem_singleton_self _
  exact ⟨n₀, n₁, h₀, h₁, finds_owner_iff (by simp) hasc (.cons ⟨1, h₀⟩ (.cons ⟨2, h₁⟩ .nil))
    (i := 1) rfl rfl hkv⟩

/-- The separator `"a"` of the key `"b"` is below the key `"az"` of the node in front, and the
search for `"az"` looks at the node of `"b"` first. -/
theorem neighbour_found : ∃ n₀ n₁ n₂,
    nodeOf defaults 1 1 [([97, 122], [1])] = .ok n₀ ∧ nodeOf defaults 1 2 [([98], [2])] = .ok n₁ ∧
    nodeOf defaults 1 3 [([99], [3])] = .ok n₂ ∧
    levelBinarySearch [n₀, n₁, n₂] [97, 122] 3 0 3 = some n₁ ∧ n₁ ≠ n₀ := by
  obtain ⟨n₀, h₀, -, hend₀, -⟩ := exists_nodeOf defaults 1 1 ([97, 122], [1]) []
  obtain ⟨n₁, h₁, hstart, hend, -⟩ := exists_nodeOf defaults 1 2 ([98], [2]) []
  obtain ⟨n₂, h₂, -⟩ := exists_nodeOf defaults 1 3 ([99], [3]) []
  refine ⟨n₀, n₁, n₂, h₀, h₁, h₂, ?_, ?_⟩
  · have hright : ¬ n₁.endKey < [97, 122] := by
      rw [hend]
      decide
    have hleft : ¬ [97, 122] ≤ n₁.startKey := by
      rw [hstart]
      decide
    simp [levelBinarySearch, hright, hleft]
  · rintro rfl
    rw [hend] at hend₀
    revert hend₀
    decide

end Tree

end Yukino.Lsm
