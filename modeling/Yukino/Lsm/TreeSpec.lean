import Yukino.Lib.Layers
import Yukino.Lsm.SstSpec
import Yukino.Lsm.Tree

set_option autoImplicit false

/-!
# Reading the tree

The answer to a key is in the newest place that has it: the memtable, the read-only ones, the
tables of level 0 and the further levels. In a further level, the binary search finds the one
table that can have the key, if the tables are in order.

## Main definitions

* `Tree.InOrder` — the nodes of a level are one behind the other.
* `Tree.answer` — the newest answer.
* `Tree.inMemory` — the answer of the memtables.
* `Tree.Readable` — every node holds its pairs, and the further levels are in order.

## Main results

* `Tree.levelBinarySearch_finds` — the search finds the node around the key.
* `Tree.found_get` — the places that `Get` asks.
* `Tree.getLevel_eq` — a level in order answers with the value of the node that has it.
* `Tree.Readable.get` — `Get` finds the newest answer.
-/

namespace Yukino.Lsm

open Layers Outcome List Option
open SortedAssoc (Ascending)

namespace Tree

variable {conf : Config} {t : Tree} {nodes : List Node} {n : Node} {key : Bytes}

/-! ## Reading -/

/-- The nodes of a level are one behind the other. -/
def InOrder (nodes : List Node) : Prop :=
  nodes.Pairwise fun a b => a.endKey ≤ b.startKey

/-- A node that holds its pairs. -/
abbrev Good (conf : Config) (n : Node) : Prop :=
  n.Holds conf (pairs n)

lemma Good.get (h : Good conf n) : n.get conf key = .ok ((pairs n).lookup key) :=
  Node.Holds.get h key

/-- The node whose keys are around the given one. -/
def Around (n : Node) (key : Bytes) : Prop :=
  n.startKey < key ∧ key ≤ n.endKey

lemma Good.around (h : Good conf n) {v : Bytes} (hv : (pairs n).lookup key = some v) :
    Around n key := by
  obtain ⟨l₁, l₂, hl, -⟩ := lookup_eq_some_iff.1 hv
  have hmem : (key, v) ∈ pairs n := by rw [hl]; simp
  exact ⟨h.start_lt _ hmem, h.le_end _ hmem⟩

/-- In a level in order, at most one node is around a key. -/
lemma InOrder.around_unique (h : InOrder nodes) {i j : ℕ} {a b : Node} (ha : nodes[i]? = some a)
    (hb : nodes[j]? = some b) (hka : Around a key) (hkb : Around b key) : i = j := by
  obtain ⟨hi, rfl⟩ := List.getElem?_eq_some_iff.1 ha
  obtain ⟨hj, rfl⟩ := List.getElem?_eq_some_iff.1 hb
  rcases lt_trichotomy i j with hij | hij | hij
  · have hle := pairwise_iff_getElem.1 h i j hi hj hij
    exact absurd (hka.2.trans hle) (not_le.2 hkb.1)
  · exact hij
  · have hle := pairwise_iff_getElem.1 h j i hj hi hij
    exact absurd (hkb.2.trans hle) (not_le.2 hka.1)

/-- What a search of a part of a level may find. -/
def Finds (nodes : List Node) (key : Bytes) (start stop : ℕ) : Option Node → Prop
  | none => ∀ i a, start ≤ i → i < stop → nodes[i]? = some a → ¬Around a key
  | some a => a ∈ nodes ∧ Around a key

/-- A search may find in a part what it finds in another, if no node of the rest is around the
key. -/
lemma Finds.widen {start stop start' stop' : ℕ} {r : Option Node}
    (h : Finds nodes key start' stop' r)
    (hout : ∀ i a, start ≤ i → i < stop → i < start' ∨ stop' ≤ i → nodes[i]? = some a →
      ¬Around a key) :
    Finds nodes key start stop r := by
  cases r with
  | some a => exact h
  | none =>
    intro i a hi hi' ha
    by_cases hin : start' ≤ i ∧ i < stop'
    · exact h i a hin.1 hin.2 ha
    · exact hout i a hi hi' (by omega) ha

/-- The binary search finds the node around the key. -/
lemma levelBinarySearch_finds (h : InOrder nodes) (hkeys : ∀ n ∈ nodes, n.startKey < n.endKey)
    {rounds start stop : ℕ} (hstop : stop ≤ nodes.length) (hrounds : stop - start ≤ rounds) :
    Finds nodes key start stop (levelBinarySearch nodes key rounds start stop) := by
  induction rounds generalizing start stop with
  | zero =>
    intro i a hi hi'
    omega
  | succ rounds ih =>
    unfold levelBinarySearch
    by_cases hempty : stop ≤ start
    · rw [if_pos hempty]
      intro i a hi hi'
      omega
    have hmid : start + (stop - 1 - start) / 2 < nodes.length := by omega
    simp only [getElem?_eq_getElem hmid]
    generalize hm : start + (stop - 1 - start) / 2 = mid at *
    have hmem : nodes[mid] ∈ nodes := getElem_mem hmid
    split_ifs with hend hstart
    · -- the key is behind the middle node, and so behind all before it
      refine (ih hstop (show stop - (mid + 1) ≤ rounds by omega)).widen fun i a _ _ hi ha hka => ?_
      obtain ⟨hilen, rfl⟩ := List.getElem?_eq_some_iff.1 ha
      rcases lt_or_eq_of_le (show i ≤ mid by omega) with him | rfl
      · have hle := pairwise_iff_getElem.1 h i mid hilen hmid him
        exact absurd (hka.2.trans (hle.trans (hkeys _ hmem).le)) (not_le.2 hend)
      · exact absurd hka.2 (not_le.2 hend)
    · refine (ih hmid.le (show mid - start ≤ rounds by omega)).widen fun i a _ _ hi ha hka => ?_
      obtain ⟨hilen, rfl⟩ := List.getElem?_eq_some_iff.1 ha
      rcases lt_or_eq_of_le (show mid ≤ i by omega) with him | rfl
      · have hle := pairwise_iff_getElem.1 h mid i hmid hilen him
        exact absurd hka.1 (not_lt.2 (hstart.trans ((hkeys _ hmem).le.trans hle)))
      · exact absurd hka.1 (not_lt.2 hstart)
    · exact ⟨hmem, not_le.1 hstart, not_lt.1 hend⟩

/-- The value of a key in each of some nodes. -/
def values (nodes : List Node) (key : Bytes) : List (Option Bytes) :=
  nodes.map fun n => (pairs n).lookup key

lemma values_append (nodes nodes' : List Node) (key : Bytes) :
    values (nodes ++ nodes') key = values nodes key ++ values nodes' key :=
  map_append

lemma some_mem_values {v : Bytes} :
    some v ∈ values nodes key ↔ ∃ n ∈ nodes, (pairs n).lookup key = some v :=
  mem_map

lemma Good.start_lt_end (h : Good conf n) : n.startKey < n.endKey := by
  obtain ⟨v, hv⟩ := h.end_mem
  exact h.start_lt _ hv

/-- In a level in order, at most one node has a value for a key. -/
lemma InOrder.atMostOne (h : InOrder nodes) (hgood : ∀ n ∈ nodes, Good conf n) (key : Bytes) :
    AtMostOne (values nodes key) := by
  refine pairwise_map.2 (h.imp_of_mem fun {a b} ha hb hle => ?_)
  by_contra hnot
  rw [not_or, ← Ne, ← Ne, ne_none_iff_exists', ne_none_iff_exists'] at hnot
  obtain ⟨⟨v, hv⟩, w, hw⟩ := hnot
  have hka := (hgood a ha).around hv
  have hkb := (hgood b hb).around hw
  exact absurd (hka.2.trans hle) (not_le.2 hkb.1)

/-- **A level in order answers a key** with the value of the node that has it. -/
lemma getLevel_eq (h : InOrder nodes) (hgood : ∀ n ∈ nodes, Good conf n) (key : Bytes) :
    getLevel conf nodes key = .ok (newest (values nodes key)) := by
  have hfinds : Finds nodes key 0 nodes.length
      (levelBinarySearch nodes key nodes.length 0 nodes.length) :=
    levelBinarySearch_finds h (fun n hn => (hgood n hn).start_lt_end) le_rfl (Nat.sub_le _ _)
  have hone := h.atMostOne hgood key
  unfold getLevel
  cases hres : levelBinarySearch nodes key nodes.length 0 nodes.length with
  | none =>
    rw [hres] at hfinds
    have hnone : newest (values nodes key) = none := by
      refine newest_eq_none_iff.2 fun a ha => ?_
      obtain ⟨n, hn, rfl⟩ := mem_map.1 ha
      obtain ⟨i, hi, rfl⟩ := getElem_of_mem hn
      by_contra hsome
      obtain ⟨v, hv⟩ := ne_none_iff_exists'.1 hsome
      exact hfinds i _ (Nat.zero_le _) hi (getElem?_eq_getElem hi) ((hgood _ hn).around hv)
    simp only [hnone]
  | some a =>
    rw [hres] at hfinds
    obtain ⟨ha, haround⟩ := hfinds
    simp only [(hgood a ha).get]
    congr 1
    cases hv : (pairs a).lookup key with
    | some v =>
      symm
      rw [hone.newest_eq_some_iff]
      exact mem_map.2 ⟨a, ha, hv⟩
    | none =>
      -- a node with the key would be around it, as this one is
      symm
      refine newest_eq_none_iff.2 fun b hb => ?_
      obtain ⟨n, hn, rfl⟩ := mem_map.1 hb
      by_contra hsome
      obtain ⟨w, hw⟩ := ne_none_iff_exists'.1 hsome
      obtain ⟨i, hi, rfl⟩ := getElem_of_mem ha
      obtain ⟨j, hj, rfl⟩ := getElem_of_mem hn
      have hij := h.around_unique (getElem?_eq_getElem hi) (getElem?_eq_getElem hj)
        haround ((hgood _ hn).around hw)
      subst hij
      rw [hv] at hw
      cases hw

/-! ## The newest answer -/

/-- The answer of the first of some levels that has one. -/
def levelsAnswer (t : Tree) (key : Bytes) (levels : List ℕ) : Option Bytes :=
  levels.findSome? fun level => newest (values (t.nodes level) key)

/-- The newest answer to a key. -/
def answer (conf : Config) (t : Tree) (key : Bytes) : Option Bytes :=
  (t.memTable.get key).or ((newest (t.rOnlyMemTable.map (·.memTable.get key))).or
    (t.levelsAnswer key (range conf.maxLevel)))

/-- The answer of the memtables. -/
def inMemory (t : Tree) (key : Bytes) : Option Bytes :=
  (t.memTable.get key).or (newest (t.rOnlyMemTable.map (·.memTable.get key)))

lemma answer_eq (conf : Config) (t : Tree) (key : Bytes) :
    t.answer conf key =
      (t.inMemory key).or (t.levelsAnswer key (range conf.maxLevel)) :=
  (Option.or_assoc ..).symm

lemma levelsAnswer_cons (t : Tree) (key : Bytes) (level : ℕ) (levels : List ℕ) :
    t.levelsAnswer key (level :: levels) =
      (newest (values (t.nodes level) key)).or (t.levelsAnswer key levels) := by
  rw [levelsAnswer, findSome?_cons]
  cases newest (values (t.nodes level) key) <;> rfl

lemma range_maxLevel (conf : Config) :
    range conf.maxLevel = 0 :: range' 1 (conf.maxLevel - 1) := by
  have h := conf.two_le
  obtain ⟨m, hm⟩ : ∃ m, conf.maxLevel = m + 1 := ⟨conf.maxLevel - 1, by omega⟩
  rw [hm, range_eq_range', range'_succ, Nat.add_sub_cancel]

/-- Every node holds its pairs, and the levels from the first on are in order. -/
structure Readable (conf : Config) (t : Tree) : Prop where
  good : ∀ level, ∀ n ∈ t.nodes level, Good conf n
  inOrder : ∀ level, 0 < level → InOrder (t.nodes level)

/-- What the tables of a level find for a key: nothing, a value, or a failure. -/
def finds (conf : Config) (level : ℕ) (nodes : List Node) (key : Bytes) :
    Option (Except Fault Bytes) :=
  found (if level = 0 then getFrom conf key nodes.reverse else getLevel conf nodes key)

lemma found_getFrom (key : Bytes) (nodes : List Node) :
    found (getFrom conf key nodes.reverse) =
      newest (nodes.map fun n => found (n.get conf key)) := by
  rw [← findSome?_reverse]
  generalize nodes.reverse = newestFirst
  induction newestFirst with
  | nil => rfl
  | cons a l ih =>
    rw [getFrom, findSome?_cons]
    rcases a.get conf key with e | (_ | v)
    · rfl
    · exact ih
    · rfl

lemma found_getLevels (t : Tree) (key : Bytes) {levels : List ℕ} (hpos : ∀ l ∈ levels, l ≠ 0) :
    found (t.getLevels conf key levels) =
      levels.findSome? fun l => finds conf l (t.nodes l) key := by
  induction levels with
  | nil => rfl
  | cons l levels ih =>
    obtain ⟨hl, hpos⟩ := forall_mem_cons.1 hpos
    rw [getLevels, findSome?_cons, finds, if_neg hl]
    rcases getLevel conf (t.nodes l) key with e | (_ | v)
    · rfl
    · exact ih hpos
    · rfl

/-- **`Get` asks one place after another**: the memtables, and then the levels. -/
lemma found_get (t : Tree) (key : Bytes) : found (t.get conf key) = ((t.inMemory key).map .ok).or
    ((range conf.maxLevel).findSome? fun l => finds conf l (t.nodes l) key) := by
  rw [range_maxLevel, findSome?_cons, inMemory, ← findSome?_reverse, Tree.get]
  cases t.memTable.get key with
  | some v => rfl
  | none =>
    cases t.rOnlyMemTable.reverse.findSome? (·.memTable.get key) with
    | some v => rfl
    | none =>
      have hpos : ∀ l ∈ range' 1 (conf.maxLevel - 1), l ≠ 0 := fun l hl =>
        Nat.one_le_iff_ne_zero.1 (mem_range'_1.1 hl).1
      rw [finds, if_pos rfl, ← found_getLevels t key hpos]
      dsimp only
      rcases getFrom conf key (t.nodes 0).reverse with e | (_ | v) <;> rfl

/-- A level of a readable tree finds the newest value of its nodes. -/
lemma Readable.finds (h : Readable conf t) (level : ℕ) (key : Bytes) :
    finds conf level (t.nodes level) key = (newest (values (t.nodes level) key)).map .ok := by
  rw [Tree.finds]
  split_ifs with hzero
  · rw [found_getFrom, ← newest_map, values, List.map_map]
    congr 1
    refine map_congr_left fun n hn => ?_
    rw [(h.good level n hn).get, found_ok]
    rfl
  · rw [getLevel_eq (h.inOrder level (Nat.pos_of_ne_zero hzero)) (h.good level), found_ok]

/-- **`Get` finds the newest answer.** -/
theorem Readable.get (h : Readable conf t) (key : Bytes) :
    t.get conf key = .ok (t.answer conf key) := by
  rw [← found_inj, found_get, found_ok, answer_eq, map_or, levelsAnswer]
  congr 1
  rw [findSome?_congr fun l _ => h.finds l key]
  exact (map_findSome? ..).symm

end Tree

end Yukino.Lsm
