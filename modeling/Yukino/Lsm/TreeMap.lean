import Yukino.Lsm.Insertion

set_option autoImplicit false

/-!
# The tree reads back the latest value of each key

Every `Put` is read back until the next one of its key, in whatever order the calls and the steps
in the background are taken, as long as each step is tidy: memtables are received in the order in
which they were filled, the first key of each table is separable, and a compaction of a level takes
a newer table only together with the older ones that share a key with it, and its tables find their
places in the next level.

## Main definitions

* `Tree.Sound` — the invariant: every node holds its pairs, the levels from the first on
  are in order, and the queue is that of the read-only memtables.
* `Tree.tidy`, `Tree.orderly` — the condition on a step and on a run.

## Main results

* `Tree.Sound.step` — what a tidy step does to the answers.
* `Tree.reads_latest` — in an orderly run, `Get` reads the latest value.
* `Tree.stale_value_read` — a run that is not orderly and reads an older one.
-/

namespace Yukino.Lsm

open Layers Outcome List Function
open SortedAssoc (Ascending)

namespace Tree

variable {conf : Config} {t t' : Tree} {level : ℕ} {key : Bytes}

/-! ## The invariant -/

/-- The nodes of the tree: each is of its level, and known by its number. -/
structure Stored (conf : Config) (t : Tree) : Prop where
  good : ∀ l, ∀ n ∈ t.nodes l, Good conf n
  level_eq : ∀ l, ∀ n ∈ t.nodes l, n.level = l
  seq_le : ∀ l, ∀ n ∈ t.nodes l, n.seq ≤ t.levelToSeq l
  nodup : ∀ l, ((t.nodes l).map (·.seq)).Nodup
  within : ∀ l, t.nodes l ≠ [] → l < conf.maxLevel

/-- The memtables that wait to be compacted are the read-only ones. -/
structure Queued (conf : Config) (t : Tree) : Prop where
  memCompactC_eq : t.memCompactC = t.rOnlyMemTable
  ascending : (t.rOnlyMemTable.map (·.walFile)).Pairwise (· < ·)
  walFile_lt : ∀ item ∈ t.rOnlyMemTable, item.walFile < t.memTableIndex
  ne_nil : ∀ item ∈ t.rOnlyMemTable, item.memTable.entries ≠ []
  levels : ∀ l ∈ t.levelCompactC, l + 1 < conf.maxLevel

structure Sound (conf : Config) (t : Tree) : Prop where
  stored : Stored conf t
  inOrder : ∀ l, 0 < l → InOrder (t.nodes l)
  queued : Queued conf t

lemma Sound.readable (h : Sound conf t) : Readable conf t :=
  ⟨h.stored.good, h.inOrder⟩

lemma sound_new (conf : Config) : Sound conf new where
  stored :=
    { good := fun _ _ h => absurd h not_mem_nil
      level_eq := fun _ _ h => absurd h not_mem_nil
      seq_le := fun _ _ h => absurd h not_mem_nil
      nodup := fun _ => nodup_nil
      within := fun _ h => absurd rfl h }
  inOrder _ _ := .nil
  queued :=
    { memCompactC_eq := rfl
      ascending := .nil
      walFile_lt := fun _ h => absurd h not_mem_nil
      ne_nil := fun _ h => absurd h not_mem_nil
      levels := fun _ h => absurd h not_mem_nil }

lemma Stored.of_sublist (h : Stored conf t) (hnodes : ∀ l, (t'.nodes l).Sublist (t.nodes l))
    (hseq : t'.levelToSeq = t.levelToSeq) : Stored conf t' where
  good l n hn := h.good l n ((hnodes l).subset hn)
  level_eq l n hn := h.level_eq l n ((hnodes l).subset hn)
  seq_le l n hn := by
    rw [hseq]
    exact h.seq_le l n ((hnodes l).subset hn)
  nodup l := (h.nodup l).sublist ((hnodes l).map _)
  within l hl := h.within l fun hnil => hl (sublist_nil.1 (hnil ▸ hnodes l))

/-- Tables that are added keep their numbers apart. -/
lemma Stored.added (h : Stored conf t) {tables : List (List KV)} {new : List Node}
    (hadd : Added conf level t t' tables new) (hlevel : level < conf.maxLevel) :
    Stored conf t' := by
  have hmem : ∀ n, n ∈ t'.nodes level → n ∈ t.nodes level ∨ n ∈ new := fun n hn =>
    mem_append.1 (hadd.nodes_perm.mem_iff.1 hn)
  have hnodup : ((t.nodes level ++ new).map (·.seq)).Nodup := by
    rw [map_append]
    refine List.Nodup.append (h.nodup level) ?_ ?_
    · exact List.Pairwise.map _ (fun _ _ hlt => hlt.ne) hadd.ascending
    · rintro s hold hnew
      obtain ⟨a, ha, rfl⟩ := mem_map.1 hold
      obtain ⟨b, hb, hab⟩ := mem_map.1 hnew
      have hle := h.seq_le level a ha
      have hlt := (hadd.seq_mem b hb).1
      omega
  refine ⟨fun l n hn => ?_, fun l n hn => ?_, fun l n hn => ?_, fun l => ?_, fun l hl => ?_⟩
  all_goals rcases eq_or_ne l level with rfl | hne
  · exact (hmem n hn).elim (h.good l n) (hadd.good n)
  · exact h.good l n (hadd.nodes_of_ne l hne ▸ hn)
  · exact (hmem n hn).elim (h.level_eq l n) (hadd.level_eq n)
  · exact h.level_eq l n (hadd.nodes_of_ne l hne ▸ hn)
  · rcases hmem n hn with hn | hn
    · exact (h.seq_le l n hn).trans hadd.levelToSeq_le
    · exact (hadd.seq_mem n hn).2
  · rw [hadd.levelToSeq_of_ne l hne]
    exact h.seq_le l n (hadd.nodes_of_ne l hne ▸ hn)
  · exact (hadd.nodes_perm.map _).nodup_iff.2 hnodup
  · rw [hadd.nodes_of_ne l hne]
    exact h.nodup l
  · exact hlevel
  · exact h.within l (hadd.nodes_of_ne l hne ▸ hl)

/-! ## Triggering a compaction -/

lemma tryTriggerCompact_only (conf : Config) (t : Tree) (level : ℕ) :
    t.tryTriggerCompact conf level =
      { t with levelCompactC := (t.tryTriggerCompact conf level).levelCompactC } := by
  unfold tryTriggerCompact
  dsimp only
  split_ifs <;> rfl

lemma mem_tryTriggerCompact {l : ℕ} (hl : l ∈ (t.tryTriggerCompact conf level).levelCompactC) :
    l ∈ t.levelCompactC ∨ l = level ∧ level + 1 ≠ conf.maxLevel := by
  unfold tryTriggerCompact at hl
  dsimp only at hl
  split_ifs at hl with hlast hsize
  · exact .inl hl
  · exact .inl hl
  · rcases mem_append.1 hl with hl | hl
    · exact .inl hl
    · exact .inr ⟨mem_singleton.1 hl, hlast⟩

/-- The next level is compacted if there is one behind it. -/
lemma Queued.tryTriggerCompact (h : Queued conf t) (hlevel : level < conf.maxLevel) :
    Queued conf (t.tryTriggerCompact conf level) := by
  have hlevels : ∀ l ∈ (t.tryTriggerCompact conf level).levelCompactC,
      l + 1 < conf.maxLevel := by
    intro l hl
    rcases mem_tryTriggerCompact hl with hl | ⟨rfl, hne⟩
    · exact h.levels l hl
    · omega
  have honly := tryTriggerCompact_only conf t level
  rw [honly]
  exact { h with levels := hlevels }

/-! ## `Put` -/

lemma get_put (m : MemTable) (k v key : Bytes) :
    (m.put k v).get key = if key = k then some v else m.get key := by
  have h := SortedAssoc.lookup_put k v m.entries key
  by_cases hk : key = k
  · rw [if_pos hk] at h ⊢
    exact h
  · rw [if_neg hk] at h ⊢
    exact h

/-- The tree once a pair is in the log and in the memtable. -/
def logged (t : Tree) (k v : Bytes) : Tree :=
  { t with memTable := t.memTable.put k v }.record [.writeLog t.memTableIndex (logRecord k v)]

/-- A call of `Put` writes the pair, and then rotates or not. -/
lemma put_eq (conf : Config) (t : Tree) (k v : Bytes) :
    t.put conf k v = t.logged k v ∨ t.put conf k v = (t.logged k v).refreshMemTableLocked := by
  by_cases hload : loadOf (t.logged k v).memTable.size ≤ conf.sstSize
  · exact .inl (if_pos hload)
  · exact .inr (if_neg hload)

/-- The memtable as a read-only one. -/
def oldItem (t : Tree) : MemTableCompactItem :=
  ⟨t.memTableIndex, t.memTable⟩

/-- A rotation changes no answer. -/
lemma answer_refreshMemTableLocked (conf : Config) (t : Tree) (key : Bytes) :
    t.refreshMemTableLocked.answer conf key = t.answer conf key := by
  have hnew : t.refreshMemTableLocked.answer conf key = (none : Option Bytes).or
      ((newest ((t.rOnlyMemTable ++ [t.oldItem]).map (·.memTable.get key))).or
        (t.levelsAnswer key (range conf.maxLevel))) := rfl
  rw [hnew, map_append, newest_append, Option.or_assoc]
  rfl

lemma answer_logged (conf : Config) (t : Tree) (k v key : Bytes) :
    (t.logged k v).answer conf key = if key = k then some v else t.answer conf key := by
  have hnew : (t.logged k v).answer conf key = ((t.memTable.put k v).get key).or
      ((newest (t.rOnlyMemTable.map (·.memTable.get key))).or
        (t.levelsAnswer key (range conf.maxLevel))) := rfl
  rw [hnew, get_put]
  split_ifs
  · rfl
  · rfl

lemma answer_put (conf : Config) (t : Tree) (k v key : Bytes) :
    (t.put conf k v).answer conf key = if key = k then some v else t.answer conf key := by
  rcases put_eq conf t k v with h | h
  · rw [h, answer_logged]
  · rw [h, answer_refreshMemTableLocked, answer_logged]

lemma Sound.refreshMemTableLocked (h : Sound conf t) (hne : t.memTable.entries ≠ []) :
    Sound conf t.refreshMemTableLocked where
  stored := { h.stored with }
  inOrder := h.inOrder
  queued :=
    { memCompactC_eq := congrArg (· ++ _) h.queued.memCompactC_eq
      ascending := by
        have hmap : t.refreshMemTableLocked.rOnlyMemTable.map (·.walFile) =
            t.rOnlyMemTable.map (·.walFile) ++ [t.memTableIndex] := map_append
        rw [hmap]
        refine pairwise_append.2 ⟨h.queued.ascending, pairwise_singleton _ _, ?_⟩
        intro a ha b hb
        obtain ⟨item, hitem, rfl⟩ := mem_map.1 ha
        obtain rfl := mem_singleton.1 hb
        exact h.queued.walFile_lt item hitem
      walFile_lt := fun item hitem => by
        rcases mem_append.1 hitem with hitem | hitem
        · exact (h.queued.walFile_lt item hitem).trans (Nat.lt_succ_self _)
        · obtain rfl := mem_singleton.1 hitem
          exact Nat.lt_succ_self _
      ne_nil := fun item hitem => by
        rcases mem_append.1 hitem with hitem | hitem
        · exact h.queued.ne_nil item hitem
        · obtain rfl := mem_singleton.1 hitem
          exact hne
      levels := h.queued.levels }

lemma Sound.logged (h : Sound conf t) (k v : Bytes) : Sound conf (t.logged k v) where
  stored := { h.stored with }
  inOrder := h.inOrder
  queued := { h.queued with }

lemma Sound.put (h : Sound conf t) (k v : Bytes) : Sound conf (t.put conf k v) := by
  rcases put_eq conf t k v with heq | heq
  · rw [heq]
    exact h.logged k v
  · rw [heq]
    exact (h.logged k v).refreshMemTableLocked (SortedAssoc.put_ne_nil k v t.memTable.entries)

/-! ## Flushing a memtable -/

section Flush

variable {item : MemTableCompactItem} {rest : List MemTableCompactItem}

/-- The tree after the first memtable of the queue was written to a table and forgotten. -/
def flushed (conf : Config) (t : Tree) (item : MemTableCompactItem)
    (rest : List MemTableCompactItem) : Tree :=
  { (({ t with memCompactC := rest }.addTable conf 0 item.memTable.all).tryTriggerCompact
      conf 0) with rOnlyMemTable := rest }.record [.removeLog item.walFile]

/-- Besides the tables, a flush changes the queue and triggers a compaction. -/
lemma flushed_only (conf : Config) (t : Tree) (item : MemTableCompactItem)
    (rest : List MemTableCompactItem) :
    t.flushed conf item rest =
      { t with
        rOnlyMemTable := rest
        memCompactC := rest
        nodes := (t.flushed conf item rest).nodes
        levelToSeq := (t.flushed conf item rest).levelToSeq
        levelCompactC := (t.flushed conf item rest).levelCompactC
        ops := (t.flushed conf item rest).ops } := by
  have hadd := addTable_only conf 0 { t with memCompactC := rest } item.memTable.all
  have htry := tryTriggerCompact_only conf
    ({ t with memCompactC := rest }.addTable conf 0 item.memTable.all) 0
  unfold flushed record
  generalize ({ t with memCompactC := rest }.addTable conf 0 item.memTable.all) = t₁ at hadd htry ⊢
  rw [htry, hadd]

lemma rOnlyMemTable_flushMemTable (conf : Config) (t : Tree) (m : MemTable) :
    (t.flushMemTable conf m).rOnlyMemTable = t.rOnlyMemTable := by
  unfold flushMemTable
  rw [tryTriggerCompact_only]
  show (t.addTable conf 0 m.all).rOnlyMemTable = _
  rw [addTable_only]

/-- The oldest memtable is written to the newest table of level 0. -/
lemma compactMemTable_eq (conf : Config) (hr : t.rOnlyMemTable = item :: rest) :
    ({ t with memCompactC := rest }.compactMemTable conf item) = t.flushed conf item rest := by
  have hro : ({ t with memCompactC := rest }.flushMemTable conf item.memTable).rOnlyMemTable =
      item :: rest := (rOnlyMemTable_flushMemTable conf _ _).trans hr
  unfold compactMemTable
  dsimp only
  rw [hro, findIdx?_cons, if_pos (decide_eq_true rfl)]
  rfl

variable (h : Sound conf t) (hr : t.rOnlyMemTable = item :: rest)
  (hok : writable conf item.memTable.all = true)
include h hr hok

lemma Sound.exists_flushed : ∃ n new, MadeOf conf 0 (t.levelToSeq 0 + 1) item.memTable.all n ∧
    Added conf 0 { t with memCompactC := rest }
      ({ t with memCompactC := rest }.addTable conf 0 item.memTable.all) [item.memTable.all] new ∧
    (t.flushed conf item rest).nodes = update t.nodes 0 (t.nodes 0 ++ [n]) := by
  have hne : item.memTable.all ≠ [] := h.queued.ne_nil item (by rw [hr]; exact mem_cons_self)
  obtain ⟨n, hn⟩ := exists_madeOf hne item.memTable.ascending hok 0 (t.levelToSeq 0 + 1)
  have heq := addTable_eq (t := { t with memCompactC := rest }) hn.made
  refine ⟨n, [n], hn, heq ▸ added_insertNode hn, ?_⟩
  unfold flushed record
  rw [tryTriggerCompact_only, heq]
  unfold insertNode
  rw [hn.level_eq]
  rfl

/-- **A flush changes no answer.** -/
lemma Sound.answer_flushed (key : Bytes) :
    (t.flushed conf item rest).answer conf key = t.answer conf key := by
  obtain ⟨n, new, hn, -, hnodes⟩ := h.exists_flushed hr hok
  have hlevels : (t.flushed conf item rest).levelsAnswer key (range conf.maxLevel) =
      (item.memTable.get key).or (t.levelsAnswer key (range conf.maxLevel)) := by
    rw [range_maxLevel, levelsAnswer_cons, levelsAnswer_cons, hnodes, update_self, values,
      map_append, newest_append, map_singleton, hn.pairs_eq, Option.or_assoc]
    congr 2
    refine findSome?_congr fun l hl => ?_
    have hpos := (mem_range'_1.1 hl).1
    rw [hnodes, update_of_ne (by omega)]
  have hmem : (t.flushed conf item rest).memTable = t.memTable := by rw [flushed_only]
  have hro : (t.flushed conf item rest).rOnlyMemTable = rest := by
    rw [flushed_only]
  rw [answer, answer, hmem, hro, hlevels, hr, map_cons, newest_cons, Option.or_assoc]

lemma Sound.flushed : Sound conf (t.flushed conf item rest) := by
  obtain ⟨n, new, hn, hadd, hnodes⟩ := h.exists_flushed hr hok
  have htwo := conf.two_le
  have honly := flushed_only conf t item rest
  have hsub : ∀ i ∈ rest, i ∈ t.rOnlyMemTable := fun i hi => by
    rw [hr]
    exact mem_cons_of_mem _ hi
  have hasc := h.queued.ascending
  rw [hr] at hasc
  have hstored : Stored conf ({ t with memCompactC := rest }.addTable conf 0 item.memTable.all) :=
    Stored.added (t := { t with memCompactC := rest }) { h.stored with } hadd (by omega)
  refine ⟨?_, fun l hl => ?_, ?_⟩
  · have htry : Stored conf
        (({ t with memCompactC := rest }.addTable conf 0 item.memTable.all).tryTriggerCompact
          conf 0) := by
      rw [tryTriggerCompact_only]
      exact { hstored with }
    exact { htry with }
  · rw [hnodes, update_of_ne (by omega)]
    exact h.inOrder l hl
  · refine ⟨?_, ?_, ?_, ?_, fun l hl => ?_⟩
    · rw [honly]
    · exact (pairwise_cons.1 hasc).2
    · rw [honly]
      exact fun i hi => h.queued.walFile_lt i (hsub i hi)
    · exact fun i hi => h.queued.ne_nil i (hsub i hi)
    · rcases mem_tryTriggerCompact hl with hl | ⟨rfl, -⟩
      · rw [addTable_only] at hl
        exact h.queued.levels l hl
      · omega

end Flush

/-! ## Compacting a level -/

/-- The keys between which `pickCompactNodes` picks. -/
def range (t : Tree) (level : ℕ) : Bytes × Bytes :=
  match t.nodes level with
  | [] => ([], [])
  | first :: _ => pickRange (t.nodes level) first

/-- Whether a node of the level or of the next is picked. -/
def picks (t : Tree) (level : ℕ) (n : Node) : Bool :=
  meets (t.range level) n

def sharesKey (a b : Node) : Bool :=
  (pairs a).any fun kv => ((pairs b).lookup kv.1).isSome

/-- No node that stays shares a key with a newer one that is picked. -/
def Closed (t : Tree) (level : ℕ) : Prop :=
  (t.nodes level).Pairwise fun a b =>
    t.picks level a = false → t.picks level b = true → sharesKey a b = false

instance (t : Tree) (level : ℕ) : Decidable (t.Closed level) :=
  inferInstanceAs (Decidable (List.Pairwise _ _))

/-- The tables that a compaction of the level makes. -/
def merged (conf : Config) (t : Tree) (level : ℕ) : List (List KV) :=
  outputs conf (sstLimit conf (level + 1)) [] (pickedNodesToKVs (t.pickCompactNodes level))

/-- The tables of a compaction find their places in the next level: each is behind the tables before
it and clear of the nodes that stay, and a first node that stays is in front of them all. -/
def apart (conf : Config) (t : Tree) (level : ℕ) : Bool :=
  let ranges := (t.merged conf level).map keyRange
  decide (ranges.Pairwise fun a b => a.2 ≤ b.1) &&
    ((t.nodes (level + 1)).all (fun n => t.picks level n || ranges.all (clear n.range)) &&
      (t.nodes (level + 1)).head?.all fun n => t.picks level n || ranges.all (n.endKey ≤ ·.1))

/-- The tree with the tables of a compaction, and without those that were picked. -/
def compacted (conf : Config) (t : Tree) (level : ℕ) : Tree :=
  ((t.merged conf level).foldl (addTable conf (level + 1)) t).removeNodes level
    (t.pickCompactNodes level)

/-- The tables of a level that a compaction leaves there. -/
def staying (t : Tree) (level l : ℕ) : List Node :=
  (t.nodes l).filter fun n => !t.picks level n

lemma tables_merged (hok : ∀ o ∈ t.merged conf level, Tree.writable conf o = true) :
    Tables conf (t.merged conf level) where
  ne_nil _ ho := ne_nil_of_mem_outputs ho
  ascending _ ho := ascending_of_mem_outputs (ascending_pickedNodesToKVs _) ho
  writable := hok

section Compact

variable {a b n : Node} {new : List Node} {tables : List (List KV)} {key : Bytes}

lemma lookup_of_sharesKey (h : sharesKey a b = false) (key : Bytes) :
    (pairs a).lookup key = none ∨ (pairs b).lookup key = none := by
  cases ha : (pairs a).lookup key with
  | none => exact .inl rfl
  | some v =>
    obtain ⟨l₁, l₂, hl, -⟩ := lookup_eq_some_iff.1 ha
    have hmem : (key, v) ∈ pairs a := by rw [hl]; simp
    refine .inr (Option.not_isSome_iff_eq_none.1 fun hb => ?_)
    have hshares : sharesKey a b = true := any_eq_true.2 ⟨_, hmem, hb⟩
    rw [h] at hshares
    cases hshares

lemma pickCompactNodes_eq (hne : t.nodes level ≠ []) :
    t.pickCompactNodes level = (t.nodes (level + 1)).filter (t.picks level) ++
      (t.nodes level).filter (t.picks level) := by
  obtain ⟨first, rest, hcons⟩ := exists_cons_of_ne_nil hne
  unfold pickCompactNodes picks range
  simp only [hcons]

lemma removeNodes_nodes (t : Tree) (level : ℕ) (nodes : List Node) (l : ℕ) :
    (t.removeNodes level nodes).nodes l = if l = level ∨ l = level + 1 then
      (t.nodes l).filter (fun n => !nodes.any (sameNode n)) else t.nodes l := by
  unfold removeNodes
  dsimp only
  rcases eq_or_ne l level with rfl | hl
  · rw [update_self, if_pos (.inl rfl)]
  · rw [update_of_ne hl]
    rcases eq_or_ne l (level + 1) with rfl | hl'
    · rw [update_self, if_pos (.inr rfl)]
    · rw [update_of_ne hl', if_neg (by tauto)]

lemma sameNode_iff : sameNode a b = true ↔ a.level = b.level ∧ a.seq = b.seq := by
  unfold sameNode
  rw [Bool.and_eq_true, decide_eq_true_eq, decide_eq_true_eq]

/-- Of the nodes of the two levels, those that are picked are removed. -/
lemma any_sameNode (hlevel_eq : ∀ l, ∀ n ∈ t.nodes l, n.level = l)
    (hnodup : ∀ l, ((t.nodes l).map (·.seq)).Nodup) (hne : t.nodes level ≠ []) {l : ℕ}
    (hl : l = level ∨ l = level + 1) (hn : n ∈ t.nodes l) :
    (t.pickCompactNodes level).any (sameNode n) = t.picks level n := by
  rw [pickCompactNodes_eq hne, Bool.eq_iff_iff, any_eq_true]
  constructor
  · rintro ⟨m, hm, hsame⟩
    obtain ⟨hlevel, hseq⟩ := sameNode_iff.1 hsame
    rw [hlevel_eq l n hn] at hlevel
    obtain ⟨l', hm', hpicks⟩ : ∃ l', m ∈ t.nodes l' ∧ t.picks level m = true := by
      rcases mem_append.1 hm with hm | hm <;> exact ⟨_, mem_filter.1 hm⟩
    obtain rfl : l = l' := hlevel.trans (hlevel_eq l' m hm')
    rwa [inj_on_of_nodup_map (hnodup l) hn hm' hseq]
  · intro hpicks
    refine ⟨n, ?_, sameNode_iff.2 ⟨rfl, rfl⟩⟩
    rcases hl with rfl | rfl
    · exact mem_append_right _ (mem_filter.2 ⟨hn, hpicks⟩)
    · exact mem_append_left _ (mem_filter.2 ⟨hn, hpicks⟩)

/-- A compaction changes the nodes and the files, and what waits for them. -/
lemma compacted_only (conf : Config) (t : Tree) (level : ℕ) :
    t.compacted conf level =
      { t with
        nodes := (t.compacted conf level).nodes
        levelToSeq := (t.compacted conf level).levelToSeq
        destroying := (t.compacted conf level).destroying
        ops := (t.compacted conf level).ops } := by
  have honly := foldl_addTable_only conf (level + 1) (t.merged conf level) t
  unfold compacted
  rw [honly]
  rfl

/-- **`compactLevel`** adds the merged tables, takes the picked ones away and may trigger the next
compaction. If nothing is picked, it still creates a file. -/
lemma compactLevel_eq (conf : Config) (hne : t.nodes level ≠ []) :
    ∃ ops, t.compactLevel conf level =
      { (t.compacted conf level).tryTriggerCompact conf (level + 1) with ops := ops } := by
  unfold compactLevel compacted merged
  rw [if_neg hne]
  dsimp only
  by_cases hkvs : pickedNodesToKVs (t.pickCompactNodes level) = []
  · rw [hkvs]
    dsimp only [compactLoop, outputs, foldl_nil, createTable, record, removeNodes,
      tryTriggerCompact]
    split_ifs <;> exact ⟨_, rfl⟩
  · rw [← compactLoop_eq hkvs [] t]
    exact ⟨_, rfl⟩

/-- The level keeps the tables that stay, and the other levels but the next one are as before. -/
lemma nodes_compacted (conf : Config) (hlevel_eq : ∀ l, ∀ n ∈ t.nodes l, n.level = l)
    (hnodup : ∀ l, ((t.nodes l).map (·.seq)).Nodup) (hne : t.nodes level ≠ []) :
    (t.compacted conf level).nodes level = t.staying level level ∧
      ∀ l, l ≠ level → l ≠ level + 1 → (t.compacted conf level).nodes l = t.nodes l := by
  have hadd := (nodes_foldl_addTable conf (level + 1) (t.merged conf level) t).1
  refine ⟨?_, fun l hl hl' => ?_⟩
  · rw [compacted, removeNodes_nodes, if_pos (.inl rfl), hadd level (by omega)]
    exact filter_congr fun n hn => by rw [any_sameNode hlevel_eq hnodup hne (.inl rfl) hn]
  · rw [compacted, removeNodes_nodes, if_neg (by tauto), hadd l hl']

/-- The numbers of new nodes are not those of picked ones. -/
lemma Stored.any_sameNode_new (h : Stored conf t) (hne : t.nodes level ≠ []) {t' : Tree}
    (hadd : Added conf (level + 1) t t' tables new) (hn : n ∈ new) :
    (t.pickCompactNodes level).any (sameNode n) = false := by
  rw [Bool.eq_false_iff]
  intro hany
  obtain ⟨m, hm, hsame⟩ := any_eq_true.1 hany
  obtain ⟨hlevel, hseq⟩ := sameNode_iff.1 hsame
  rw [pickCompactNodes_eq hne] at hm
  rw [hadd.level_eq n hn] at hlevel
  rcases mem_append.1 hm with hm | hm
  · have hle := h.seq_le _ m (mem_of_mem_filter hm)
    have hlt := (hadd.seq_mem n hn).1
    omega
  · have hm' := h.level_eq _ m (mem_of_mem_filter hm)
    omega

/-- The value of a key in the tables that are picked, those of the level before those of the
next. -/
def pickedValue (t : Tree) (level : ℕ) (key : Bytes) : Option Bytes :=
  (newest (values ((t.nodes level).filter (t.picks level)) key)).or
    (newest (values ((t.nodes (level + 1)).filter (t.picks level)) key))

lemma values_of_pairs (hnew : new.map pairs = tables) (key : Bytes) :
    values new key = tables.map (·.lookup key) := by
  rw [← hnew, map_map]
  rfl

/-- A key in the tables into which a run is cut. -/
lemma some_mem_outputs {limit : ℕ} {kvs : List KV} (hasc : Ascending kvs) (key v : Bytes) :
    some v ∈ (outputs conf limit [] kvs).map (·.lookup key) ↔ kvs.lookup key = some v := by
  by_cases hnil : kvs = []
  · subst hnil
    simp [outputs]
  have hflat : kvs.lookup key = some v ↔ (key, v) ∈ (outputs conf limit [] kvs).flatten := by
    rw [flatten_outputs hnil]
    exact hasc.lookup_eq_some_iff
  rw [hflat, mem_flatten, mem_map]
  refine exists_congr fun o => and_congr_right fun ho => ?_
  exact (ascending_of_mem_outputs (by rwa [nil_append]) ho).lookup_eq_some_iff

lemma some_mem_merged (h : Stored conf t) (hne : t.nodes level ≠ []) (key v : Bytes) :
    some v ∈ (t.merged conf level).map (·.lookup key) ↔ t.pickedValue level key = some v := by
  rw [pickedValue, ← newest_append, ← values_append, ← pickCompactNodes_eq hne, merged,
    some_mem_outputs (ascending_pickedNodesToKVs _), lookup_pickedNodesToKVs]
  intro n hn
  rw [pickCompactNodes_eq hne] at hn
  rcases mem_append.1 hn with hn | hn <;> exact (h.good _ n (mem_of_mem_filter hn)).ascending

variable (h : Sound conf t) (hne : t.nodes level ≠ [])
  (hok : ∀ o ∈ t.merged conf level, writable conf o = true)
include h hne hok

/-- The next level has the tables that stay there and the merged ones. -/
lemma Sound.exists_compacted : ∃ new,
    Added conf (level + 1) t ((t.merged conf level).foldl (addTable conf (level + 1)) t)
      (t.merged conf level) new ∧
    ((t.compacted conf level).nodes (level + 1)).Perm (t.staying level (level + 1) ++ new) := by
  obtain ⟨new, hnew⟩ :=
    (tables_merged hok).exists_numbered (level + 1) (t.levelToSeq (level + 1) + 1)
  have hadd := hnew.added
  refine ⟨new, hadd, ?_⟩
  rw [compacted, removeNodes_nodes, if_pos (.inr rfl)]
  refine (hadd.nodes_perm.filter _).trans ?_
  have hold : (t.nodes (level + 1)).filter
      (fun n => !(t.pickCompactNodes level).any (sameNode n)) = t.staying level (level + 1) :=
    filter_congr fun n hn => by
      rw [any_sameNode h.stored.level_eq h.stored.nodup hne (.inr rfl) hn]
  have hnew : new.filter (fun n => !(t.pickCompactNodes level).any (sameNode n)) = new :=
    filter_eq_self.2 fun n hn => by rw [h.stored.any_sameNode_new hne hadd hn]; rfl
  rw [filter_append, hold, hnew]

/-- The level keeps what it does not give away. -/
lemma Sound.stored_compacted (hlevel : level + 1 < conf.maxLevel) :
    Stored conf (t.compacted conf level) := by
  obtain ⟨new, hadd, -⟩ := h.exists_compacted hne hok
  refine (h.stored.added hadd hlevel).of_sublist (fun l => ?_) rfl
  rw [compacted, removeNodes_nodes]
  split_ifs
  · exact filter_sublist
  · exact .refl _

/-- The next level is in order after the compaction. -/
lemma Sound.inOrder_next (hapart : t.apart conf level = true) :
    InOrder ((t.compacted conf level).nodes (level + 1)) := by
  obtain ⟨new, hnew⟩ :=
    (tables_merged hok).exists_numbered (level + 1) (t.levelToSeq (level + 1) + 1)
  have hfold := hnew.addTables_eq
  have hmade : ∀ n ∈ new, n.startKey < n.endKey ∧ n.level = level + 1 := by
    intro n hn
    obtain ⟨s, o, -, -, ho⟩ := hnew.exists_madeOf hn
    exact ⟨ho.good.start_lt_end, ho.level_eq⟩
  have hranges : new.map Node.range = (t.merged conf level).map keyRange := hnew.ranges_eq
  unfold apart at hapart
  rw [← hranges] at hapart
  simp only [Bool.and_eq_true, decide_eq_true_eq, all_eq_true, Bool.or_eq_true,
    forall_mem_map, pairwise_map] at hapart
  obtain ⟨hpair, hclear, hfirst⟩ := hapart
  have hfilter : new.filter (·.level = level + 1) = new :=
    filter_eq_self.2 fun n hn => decide_eq_true (hmade n hn).2
  have hkeys : ∀ a ∈ t.nodes (level + 1), a.startKey < a.endKey := fun a ha =>
    (h.stored.good _ a ha).start_lt_end
  have hgone : ∀ a ∈ t.nodes (level + 1),
      (t.pickCompactNodes level).any (sameNode a) = false → t.picks level a = false := by
    intro a ha hany
    rwa [any_sameNode h.stored.level_eq h.stored.nodup hne (.inr rfl) ha] at hany
  have hpair' : new.Pairwise fun a b => clear a.range b.range = true :=
    hpair.imp fun hle => clear_iff.2 (.inl hle)
  have hspread : Spread (fun n => (t.pickCompactNodes level).any (sameNode n))
      (((t.merged conf level).foldl (addTable conf (level + 1)) t).nodes (level + 1)) := by
    rw [hfold, foldl_insertNode_nodes, hfilter]
    show Spread _ (new.foldl _ (t.nodes (level + 1)))
    have horder := h.inOrder (level + 1) (Nat.succ_pos _)
    generalize t.nodes (level + 1) = nodes at horder hkeys hgone hclear hfirst
    cases nodes with
    | cons first rest =>
      refine Spread.foldl (Nat.succ_ne_zero _) (horder.spread hkeys _) hkeys
        (fun n hn => (hmade n hn).1) (fun a ha hga n hn => ?_) hpair' fun hg n hn => ?_
      · have hstays := hgone a ha hga
        exact ((hclear a ha).resolve_left (by rw [hstays]; exact Bool.false_ne_true)) n hn
      · have hstays := hgone first mem_cons_self hg
        rw [head?_cons, Option.all_some, hstays, Bool.false_or, all_eq_true] at hfirst
        exact of_decide_eq_true (hfirst _ (mem_map_of_mem hn))
    | nil =>
      -- the first of the new nodes becomes the first of the level
      refine Spread.of_foldl_nil (Nat.succ_ne_zero _) (fun n hn => (hmade n hn).1) hpair' ?_ _
      rintro first rest rfl
      exact (pairwise_cons.1 hpair).1
  rw [compacted, removeNodes_nodes, if_pos (.inr rfl)]
  exact hspread.inOrder

lemma Sound.inOrder_compacted (hapart : t.apart conf level = true) :
    ∀ l, 0 < l → InOrder ((t.compacted conf level).nodes l) := by
  obtain ⟨hself, hother⟩ := nodes_compacted conf h.stored.level_eq h.stored.nodup hne
  intro l hl
  rcases eq_or_ne l level with rfl | hl₁
  · rw [hself]
    exact (h.inOrder l hl).sublist filter_sublist
  · rcases eq_or_ne l (level + 1) with rfl | hl₂
    · exact h.inOrder_next hne hok hapart
    · rw [hother l hl₁ hl₂]
      exact h.inOrder l hl

/-- The next level answers with the newest value of the nodes of the level that were picked, or else
as before: each of its own nodes that has the key is either kept or merged. -/
lemma Sound.newest_next (hlevel : level + 1 < conf.maxLevel) (hapart : t.apart conf level = true) :
    newest (values ((t.compacted conf level).nodes (level + 1)) key) =
      (newest (values ((t.nodes level).filter (t.picks level)) key)).or
        (newest (values (t.nodes (level + 1)) key)) := by
  have hstored := h.stored_compacted hne hok hlevel
  obtain ⟨new, hadd, hnext⟩ := h.exists_compacted hne hok
  have hbefore := (h.inOrder (level + 1) (Nat.succ_pos _)).atMostOne (h.stored.good (level + 1)) key
  have hpicked : AtMostOne (values ((t.nodes (level + 1)).filter (t.picks level)) key) :=
    hbefore.sublist (filter_sublist.map _)
  have hsplit : ∀ v, some v ∈ values (t.nodes (level + 1)) key ↔
      some v ∈ values (t.staying level (level + 1)) key ∨
        some v ∈ values ((t.nodes (level + 1)).filter (t.picks level)) key := by
    intro v
    rw [← mem_append, ← values_append, some_mem_values, some_mem_values, staying]
    simp only [mem_append, mem_filter, Bool.not_eq_true', ← and_or_left,
      ← Bool.not_eq_true, Decidable.not_or_self, and_true]
  have hmerged : ∀ v, some v ∈ values ((t.compacted conf level).nodes (level + 1)) key ↔
      some v ∈ values (t.staying level (level + 1)) key ∨ t.pickedValue level key = some v := by
    intro v
    rw [← some_mem_merged h.stored hne, ← values_of_pairs hadd.pairs_eq, ← mem_append,
      ← values_append]
    exact (hnext.map _).mem_iff
  exact newest_merge hbefore hpicked
    ((h.inOrder_next hne hok hapart).atMostOne (hstored.good (level + 1)) key) hsplit hmerged rfl

/-- **A compaction changes no answer**, if it is closed and its tables find their places.

**Proof sketch.** The picked nodes of the level may be asked after those that stay, as no older one
of these shares a key with them. The next level then answers with their value, or else with its
own. -/
lemma Sound.answer_compacted (hlevel : level + 1 < conf.maxLevel) (hclosed : t.Closed level)
    (hapart : t.apart conf level = true) :
    (t.compacted conf level).answer conf key = t.answer conf key := by
  obtain ⟨hself, hother⟩ := nodes_compacted conf h.stored.level_eq h.stored.nodup hne
  have hlast : ∀ x, (newest (values (t.nodes level) key)).or x =
      (newest (values (t.staying level level) key)).or
        ((newest (values ((t.nodes level).filter (t.picks level)) key)).or x) :=
    newest_filter (hclosed.imp fun {a b} hab ha hb => lookup_of_sharesKey (hab ha hb) key)
  have honly := compacted_only conf t level
  have hmemory : (t.compacted conf level).inMemory key = t.inMemory key := by
    rw [inMemory, inMemory, congrArg Tree.memTable honly, congrArg Tree.rOnlyMemTable honly]
  obtain ⟨habove, hbelow⟩ := findSome?_range_congr
    (fun l hl hl' => congrArg (fun nodes => newest (values nodes key)) (hother l hl hl'))
    (conf.maxLevel - (level + 2))
  rw [answer_eq, answer_eq, hmemory, levelsAnswer, levelsAnswer, findSome?_range _ hlevel,
    findSome?_range _ hlevel, habove, hbelow, hself, h.newest_next hne hok hlevel hapart,
    Option.or_assoc, ← hlast]

end Compact

/-- **A compaction of a level** keeps the invariant, if its tables find their places, and changes no
answer, if it is closed in addition. -/
lemma Sound.compactLevel (h : Sound conf t) (hlevel : level + 1 < conf.maxLevel)
    (hok : ∀ o ∈ t.merged conf level, writable conf o = true) (hapart : t.apart conf level = true) :
    Sound conf (t.compactLevel conf level) ∧ (t.Closed level → ∀ key,
      (t.compactLevel conf level).answer conf key = t.answer conf key) := by
  by_cases hne : t.nodes level = []
  · have hself : t.compactLevel conf level = t := if_pos hne
    rw [hself]
    exact ⟨h, fun _ _ => rfl⟩
  -- what waits for the compaction loop is not changed, besides the next level
  have hqueued : Queued conf ((t.compacted conf level).tryTriggerCompact conf (level + 1)) := by
    refine Queued.tryTriggerCompact ?_ hlevel
    rw [compacted_only]
    exact { h.queued with }
  obtain ⟨ops, heq⟩ := compactLevel_eq conf hne
  rw [tryTriggerCompact_only] at heq hqueued
  rw [heq]
  exact ⟨⟨{ h.stored_compacted hne hok hlevel with }, h.inOrder_compacted hne hok hapart,
    { hqueued with }⟩, fun hclosed key => h.answer_compacted hne hok hlevel hclosed hapart⟩

/-! ## Runs -/

/-- The steps that keep every answer. -/
def tidy (conf : Config) (t : Tree) : Event → Bool
  | .put _ _ => true
  | .compactMemTable walFile =>
    -- the oldest memtable is received, and a table can be made of it
    t.rOnlyMemTable.head?.any fun item =>
      item.walFile = walFile && writable conf item.memTable.all
  | .compactLevel level =>
    (t.merged conf level).all (writable conf) && (t.Closed level && t.apart conf level)
  | .destroy _ => true

lemma tidy_compactMemTable_iff {walFile : ℕ} :
    t.tidy conf (.compactMemTable walFile) = true ↔ ∃ item rest, t.rOnlyMemTable = item :: rest ∧
      item.walFile = walFile ∧ writable conf item.memTable.all = true := by
  rw [tidy]
  cases t.rOnlyMemTable with
  | nil | cons => simp

lemma tidy_compactLevel_iff :
    t.tidy conf (.compactLevel level) = true ↔
      (∀ o ∈ t.merged conf level, writable conf o = true) ∧ t.Closed level ∧
        t.apart conf level = true := by
  rw [tidy, Bool.and_eq_true, Bool.and_eq_true, decide_eq_true_eq, all_eq_true]

/-- The loop receives the oldest memtable. -/
lemma step_compactMemTable (hwait : t.memCompactC = t.rOnlyMemTable) {item : MemTableCompactItem}
    {rest : List MemTableCompactItem} (hr : t.rOnlyMemTable = item :: rest) :
    t.step conf (.compactMemTable item.walFile) = some (t.flushed conf item rest) := by
  rw [Tree.step, hwait.trans hr]
  simp only [find?_cons, eraseP_cons, decide_true, cond_true]
  rw [compactMemTable_eq conf hr]

/-- A level that the loop has received is not waited for any more. -/
lemma Sound.erase (h : Sound conf t) (level : ℕ) :
    Sound conf { t with levelCompactC := t.levelCompactC.erase level } where
  stored := { h.stored with }
  inOrder := h.inOrder
  queued := { h.queued with levels := fun l hl => h.queued.levels l (mem_of_mem_erase hl) }

/-- All steps of a run are tidy. -/
def orderly (conf : Config) (t : Tree) (es : List Event) : Bool :=
  Runs.along (step conf) (tidy conf) t es

/-- **A tidy step** keeps the invariant, and every answer but that of the key it puts. -/
theorem Sound.step (h : Sound conf t) {e : Event} (htidy : t.tidy conf e = true)
    (hstep : t.step conf e = some t') :
    Sound conf t' ∧ ∀ key, t'.answer conf key = putsFor key (t.answer conf key) e := by
  cases e with
  | put k v =>
    cases hstep
    refine ⟨h.put k v, fun key => ?_⟩
    rw [answer_put, putsFor]
    simp only [eq_comm]
  | compactMemTable walFile =>
    obtain ⟨item, rest, hr, rfl, hok⟩ := tidy_compactMemTable_iff.1 htidy
    rw [step_compactMemTable h.queued.memCompactC_eq hr, Option.some_inj] at hstep
    subst hstep
    exact ⟨h.flushed hr hok, h.answer_flushed hr hok⟩
  | compactLevel level =>
    obtain ⟨hok, hclosed, hapart⟩ := tidy_compactLevel_iff.1 htidy
    rw [Tree.step] at hstep
    split_ifs at hstep with hmem
    cases hstep
    obtain ⟨hsound, hanswer⟩ :=
      (h.erase level).compactLevel (h.queued.levels level hmem) hok hapart
    exact ⟨hsound, hanswer hclosed⟩
  | destroy i =>
    rw [Tree.step, destroyNext] at hstep
    split at hstep
    · cases hstep
      exact ⟨⟨{ h.stored with }, h.inOrder, { h.queued with }⟩, fun key => rfl⟩
    · cases hstep

/-- **An orderly run** keeps the invariant, and the answers are those of its calls of `Put`. -/
theorem Sound.run {es : List Event} (h : Sound conf t) (horderly : t.orderly conf es = true)
    (hrun : t.run conf es = some t') :
    Sound conf t' ∧ ∀ key, t'.answer conf key = es.foldl (putsFor key) (t.answer conf key) := by
  induction es generalizing t with
  | nil =>
    cases hrun
    exact ⟨h, fun _ => rfl⟩
  | cons e es ih =>
    obtain ⟨t₁, hstep, hrun⟩ := Runs.run_cons hrun
    rw [orderly, Runs.along, hstep, Bool.and_eq_true] at horderly
    obtain ⟨h₁, hanswer⟩ := h.step horderly.1 hstep
    obtain ⟨h', hanswers⟩ := ih h₁ horderly.2 hrun
    refine ⟨h', fun key => ?_⟩
    rw [hanswers, hanswer, foldl_cons]

lemma foldl_putsFor_eq_none_iff (key : Bytes) (es : List Event) (v : Option Bytes) :
    es.foldl (putsFor key) v = none ↔ v = none ∧ ∀ value, Event.put key value ∉ es := by
  induction es generalizing v with
  | nil => simp
  | cons e es ih =>
    rw [foldl_cons, ih]
    cases e with
    | put k value =>
      by_cases hk : k = key
      · subst hk
        simp only [putsFor, if_pos, reduceCtorEq, false_and, false_iff, not_and, not_forall,
          not_not]
        exact fun _ => ⟨value, mem_cons_self⟩
      · simp [putsFor, hk, Ne.symm hk]
    | compactMemTable | compactLevel | destroy => simp [putsFor]

/-- **The tree is a map.** After any orderly run, `Get` returns the value of the latest `Put` of
the key, and finds none exactly if there was no `Put` of it. -/
theorem reads_latest (conf : Config) (es : List Event) (t : Tree)
    (hrun : new.run conf es = some t) (horderly : new.orderly conf es = true) (key : Bytes) :
    t.get conf key = .ok (latest key es) ∧
      (latest key es = none ↔ ∀ value, Event.put key value ∉ es) := by
  obtain ⟨h, hanswer⟩ := (sound_new conf).run horderly hrun
  have hnew : (new : Tree).answer conf key = none := by
    have hlevels : (new : Tree).levelsAnswer key (List.range conf.maxLevel) = none :=
      findSome?_eq_none_iff.2 fun _ _ => rfl
    rw [answer, hlevels]
    rfl
  rw [h.readable.get, hanswer, hnew, latest, foldl_putsFor_eq_none_iff]
  exact ⟨rfl, ⟨fun hnone => hnone.2, fun hnone => ⟨rfl, hnone⟩⟩⟩

/-- A key is put twice, its two memtables are flushed, and their tables are merged. -/
theorem reads_latest_after_compaction :
    ∃ (conf : Config) (t : Tree),
      new.run conf [.put [97] [49], .put [97] [50], .compactMemTable 0, .compactMemTable 1,
        .compactLevel 0, .destroy 0] = some t ∧
      t.get conf [97] = .ok (some [50]) ∧ t.get conf [98] = .ok none := by
  let conf := newConfig 7 1 1 0 none
  let es : List Event := [.put [97] [49], .put [97] [50], .compactMemTable 0, .compactMemTable 1,
    .compactLevel 0, .destroy 0]
  obtain ⟨t, hrun, -⟩ : ∃ t, new.run conf es = some t ∧ True := by decide +kernel
  have horderly : new.orderly conf es = true := by decide +kernel
  exact ⟨conf, t, hrun, (reads_latest conf es t hrun horderly [97]).1,
    (reads_latest conf es t hrun horderly [98]).1⟩

/-- If the compaction loop receives the newer of two memtables first, it forgets the older one
before that is flushed, and then writes it to a newer table: the value that was put first is read
from then on. -/
theorem stale_value_read :
    ∃ (conf : Config) (es : List Event) (t : Tree), new.run conf es = some t ∧
      latest [97] es = some [50] ∧ t.get conf [97] = .ok (some [49]) := by
  let conf := newConfig 7 1 10 0 none
  let es : List Event :=
    [.put [97] [49], .put [97] [50], .compactMemTable 1, .compactMemTable 0]
  exact ⟨conf, es, by decide +kernel⟩

end Tree

end Yukino.Lsm
