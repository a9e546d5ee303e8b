import Yukino.Lsm.TreeSpec

set_option autoImplicit false

/-!
# Flushing and merging tables

`flushMemTable` adds one table to level 0; `compactLevel` merges the tables it picks and adds the
tables of the merged pairs to the next level. Both add tables in the same way.

## Main definitions

* `Tree.writable` — the pairs that make a table.
* `Tree.addTable` — create a table, write it and insert its node.
* `Tree.outputs` — the tables into which a run of pairs is cut.

## Main results

* `Tree.addTable_eq` — the table is inserted as a node that holds its pairs.
* `Tree.compactLoop_eq` — the loop of `compactLevel` adds the tables of the run.
* `Tree.lookup_pickedNodesToKVs` — the run has the newest value of each key.
* `Tree.Added` — what a level is after tables were added to it.
-/

namespace Yukino.Lsm

open Layers Outcome List Function Bool
open SortedAssoc (Ascending)

namespace Tree

variable {conf : Config} {t : Tree} {level limit : ℕ} {kvs cur : List KV}

/-! ## Adding a table -/

/-- A table can be made of the pairs: its first key is separable, and the lengths fit. -/
def writable (conf : Config) (kvs : List KV) : Bool :=
  kvs.head?.all (fun kv => Separable kv.1) &&
    (kvs.all (fun kv => kv.1.length < 2 ^ 64 && kv.2.length < 2 ^ 64) &&
      ((SSTWriter.appendAll conf {} kvs).finish conf).size < 2 ^ 56)

/-- The file of a table. -/
def fileOf (conf : Config) (kvs : List KV) : Bytes :=
  ((SSTWriter.appendAll conf {} kvs).finish conf).writes.flatten

/-- The next table of a level. -/
def addTable (conf : Config) (level : ℕ) (t : Tree) (kvs : List KV) : Tree :=
  (t.createTable level (t.levelToSeq level + 1)).finishTable conf level (t.levelToSeq level + 1)
    (SSTWriter.appendAll conf {} kvs)

/-- What is done to the files for a table. -/
def tableOps (conf : Config) (level seq : ℕ) (kvs : List KV) : List FileOp :=
  .createTable level seq ::
    ((SSTWriter.appendAll conf {} kvs).finish conf).writes.map (.writeTable level seq)

/-- A node that was made of the given pairs. -/
structure MadeOf (conf : Config) (level seq : ℕ) (kvs : List KV) (n : Node) : Prop where
  good : Good conf n
  pairs_eq : pairs n = kvs
  level_eq : n.level = level
  seq_eq : n.seq = seq
  made : newNode (fileOf conf kvs) level seq
    ((SSTWriter.appendAll conf {} kvs).finish conf).size
    ((SSTWriter.appendAll conf {} kvs).finish conf).blockToFilter
    ((SSTWriter.appendAll conf {} kvs).finish conf).index = .ok n

lemma newNode_eq {file : Bytes} {level seq size : ℕ}
    {blockToFilter : AList (fun _ : ℕ => Bytes)} {index : List Index} {n : Node}
    (h : newNode file level seq size blockToFilter index = .ok n) :
    n.level = level ∧ n.seq = seq ∧ n.file = file := by
  unfold newNode at h
  split at h
  · cases h
    exact ⟨rfl, rfl, rfl⟩
  · cases h

lemma MadeOf.holds {seq : ℕ} {n : Node} (h : MadeOf conf level seq kvs n) : n.Holds conf kvs := by
  have := h.good
  rwa [Good, h.pairs_eq] at this

lemma fits_of_writable (hok : writable conf kvs = true) : Fits conf kvs := by
  unfold writable at hok
  rw [and_eq_true, and_eq_true, decide_eq_true_eq, all_eq_true] at hok
  obtain ⟨-, hshort, hsize⟩ := hok
  refine ⟨fun kv hkv => ?_, hsize⟩
  have h := hshort kv hkv
  rwa [and_eq_true, decide_eq_true_eq, decide_eq_true_eq] at h

lemma exists_madeOf (hne : kvs ≠ []) (hasc : Ascending kvs) (hok : writable conf kvs = true)
    (level seq : ℕ) : ∃ n, MadeOf conf level seq kvs n := by
  have hfits := fits_of_writable hok
  have hfirst : ∀ kv ∈ kvs.head?, Separable kv.1 = true := by
    intro kv hkv
    unfold writable at hok
    rw [and_eq_true] at hok
    have hsep := hok.1
    rwa [hkv] at hsep
  obtain ⟨n, hnew, hholds⟩ := newNode_holds hne hasc hfirst hfits level seq
  have hpairs : pairs n = kvs := by rw [pairs, hholds.getAll]
  obtain ⟨hlevel, hseq, -⟩ := newNode_eq hnew
  exact ⟨n, by rw [Good, hpairs]; exact hholds, hpairs, hlevel, hseq, hnew⟩

/-- **A table that is added** becomes a node that is inserted. -/
lemma addTable_eq {n : Node} (hn : nodeOf conf level (t.levelToSeq level + 1) kvs = .ok n) :
    t.addTable conf level kvs =
      (t.record (tableOps conf level (t.levelToSeq level + 1) kvs)).insertNode n := by
  unfold nodeOf at hn
  unfold addTable finishTable
  simp only [hn, createTable, record, tableOps, append_assoc, singleton_append]

/-! ## Cutting a run into tables -/

/-- The tables that the loop of `compactLevel` makes of the pairs, if it has `cur` in the current
one. -/
def outputs (conf : Config) (limit : ℕ) : List KV → List KV → List (List KV)
  | _, [] => []
  | cur, kv :: kvs =>
    if (SSTWriter.appendAll conf {} cur).size > limit then
      cur :: if kvs = [] then [[kv]] else outputs conf limit [kv] kvs
    else if kvs = [] then [cur ++ [kv]] else outputs conf limit (cur ++ [kv]) kvs

lemma flatten_outputs (hne : kvs ≠ []) : (outputs conf limit cur kvs).flatten = cur ++ kvs := by
  induction kvs generalizing cur with
  | nil => exact absurd rfl hne
  | cons kv kvs ih =>
    unfold outputs
    by_cases hlast : kvs = []
    · split_ifs <;> simp [hlast]
    · split_ifs
      · rw [flatten_cons, ih hlast, singleton_append]
      · rw [ih hlast, append_assoc, singleton_append]

lemma ne_nil_of_mem_outputs {o : List KV} (ho : o ∈ outputs conf limit cur kvs) : o ≠ [] := by
  induction kvs generalizing cur with
  | nil => cases ho
  | cons kv kvs ih =>
    unfold outputs at ho
    split_ifs at ho with hfull hlast hlast
    · rcases mem_cons.1 ho with rfl | ho
      · -- an empty table is not over the limit
        rintro rfl
        exact absurd hfull (Nat.not_lt_zero _)
      · simp [mem_singleton.1 ho]
    · rcases mem_cons.1 ho with rfl | ho
      · rintro rfl
        exact absurd hfull (Nat.not_lt_zero _)
      · exact ih ho
    · simp [mem_singleton.1 ho]
    · exact ih ho

lemma ascending_of_mem_outputs (hasc : Ascending (cur ++ kvs)) {o : List KV}
    (ho : o ∈ outputs conf limit cur kvs) : Ascending o := by
  have hne : kvs ≠ [] := by
    rintro rfl
    cases ho
  have hflat : (outputs conf limit cur kvs).flatten = cur ++ kvs := flatten_outputs hne
  rw [← hflat] at hasc
  exact hasc.sublist (sublist_flatten_of_mem ho)

lemma appendAll_append (conf : Config) (cur : List KV) (kv : KV) :
    SSTWriter.appendAll conf {} (cur ++ [kv]) =
      (SSTWriter.appendAll conf {} cur).append conf kv.1 kv.2 := by
  rw [SSTWriter.appendAll, foldl_append]
  rfl

/-- **The loop of `compactLevel` adds the tables into which the pairs are cut.** -/
lemma compactLoop_eq (hne : kvs ≠ []) (cur : List KV) (t : Tree) :
    compactLoop conf level limit kvs (SSTWriter.appendAll conf {} cur) (t.levelToSeq level + 1)
        (t.createTable level (t.levelToSeq level + 1)) =
      (outputs conf limit cur kvs).foldl (addTable conf level) t := by
  induction kvs generalizing cur t with
  | nil => exact absurd rfl hne
  | cons kv kvs ih =>
    unfold compactLoop outputs rollTable
    by_cases hfull : (SSTWriter.appendAll conf {} cur).size > limit
    · simp only [if_pos hfull]
      -- the current table is finished and the next one created
      by_cases hlast : kvs = []
      · simp only [if_pos hlast]
        rfl
      · simp only [if_neg hlast]
        exact ih hlast [kv] (t.addTable conf level cur)
    · simp only [if_neg hfull]
      rw [← appendAll_append]
      by_cases hlast : kvs = []
      · simp only [if_pos hlast]
        rfl
      · simp only [if_neg hlast]
        exact ih hlast (cur ++ [kv]) t

/-! ## Merging the picked tables -/

lemma entries_putAll (m : MemTable) (kvs : List KV) :
    (m.putAll kvs).entries = SortedAssoc.putAll kvs m.entries := by
  induction kvs generalizing m with
  | nil => rfl
  | cons kv kvs ih => exact ih (m.put kv.1 kv.2)

lemma entries_foldl_putAll (runs : List (List KV)) (m : MemTable) :
    (runs.foldl MemTable.putAll m).entries = SortedAssoc.putAll runs.flatten m.entries := by
  induction runs generalizing m with
  | nil => rfl
  | cons run runs ih =>
    rw [foldl_cons, ih, entries_putAll, flatten_cons, SortedAssoc.putAll,
      SortedAssoc.putAll, SortedAssoc.putAll, foldl_append]

/-- Runs that are put one after another: a key has the value of the last run that has it. -/
lemma lookup_foldl_putAll {runs : List (List KV)} (hasc : ∀ run ∈ runs, Ascending run)
    (key : Bytes) : (runs.foldl MemTable.putAll {}).all.lookup key =
      newest (runs.map (·.lookup key)) := by
  rw [MemTable.all, entries_foldl_putAll, SortedAssoc.lookup_putAll, lookup_reverse_flatten,
    lookup_nil, Option.or_none]
  congr 1
  exact map_congr_left fun run hrun => (hasc run hrun).lookup_reverse key

lemma pickedNodesToKVs_eq (nodes : List Node) :
    pickedNodesToKVs nodes = ((nodes.map pairs).foldl MemTable.putAll {}).all := by
  rw [pickedNodesToKVs, foldl_map]

lemma ascending_pickedNodesToKVs (nodes : List Node) : Ascending (pickedNodesToKVs nodes) :=
  MemTable.ascending _

/-- **Merged pairs.** The run has the value of the last node that has the key. -/
lemma lookup_pickedNodesToKVs {nodes : List Node} (hasc : ∀ n ∈ nodes, Ascending (pairs n))
    (key : Bytes) : (pickedNodesToKVs nodes).lookup key = newest (values nodes key) := by
  rw [pickedNodesToKVs_eq, lookup_foldl_putAll (forall_mem_map.2 hasc), map_map]
  rfl

/-! ## A level after tables were added -/

lemma insertBehind_perm (n : Node) (nodes : List Node) :
    (insertBehind n nodes).Perm (nodes ++ [n]) := by
  induction nodes with
  | nil => exact .refl _
  | cons a nodes ih =>
    unfold insertBehind
    split_ifs
    · exact (perm_append_singleton n (a :: nodes)).symm
    · exact ih.cons a

lemma insertIn_perm (level : ℕ) (n : Node) (nodes : List Node) :
    (insertIn level n nodes).Perm (nodes ++ [n]) := by
  unfold insertIn
  split_ifs
  · exact .refl _
  · cases nodes with
    | nil => exact .refl _
    | cons a nodes => exact (insertBehind_perm n nodes).cons a

/-- Adding a table changes the nodes of its level, and the files. -/
lemma addTable_only (conf : Config) (level : ℕ) (t : Tree) (kvs : List KV) :
    t.addTable conf level kvs =
      { t with
        nodes := (t.addTable conf level kvs).nodes
        levelToSeq := (t.addTable conf level kvs).levelToSeq
        ops := (t.addTable conf level kvs).ops } := by
  unfold addTable finishTable
  dsimp only
  split <;> rfl

lemma foldl_addTable_only (conf : Config) (level : ℕ) (tables : List (List KV)) (t : Tree) :
    tables.foldl (addTable conf level) t =
      { t with
        nodes := (tables.foldl (addTable conf level) t).nodes
        levelToSeq := (tables.foldl (addTable conf level) t).levelToSeq
        ops := (tables.foldl (addTable conf level) t).ops } := by
  induction tables generalizing t with
  | nil => rfl
  | cons o tables ih =>
    have hrest := ih (t.addTable conf level o)
    rw [foldl_cons]
    generalize tables.foldl (addTable conf level) (t.addTable conf level o) = t' at hrest ⊢
    rw [addTable_only] at hrest
    exact hrest

/-- The nodes after tables were added, whether or not a node could be made of each. -/
lemma nodes_foldl_addTable (conf : Config) (level : ℕ) (tables : List (List KV)) (t : Tree) :
    (∀ l, l ≠ level → (tables.foldl (addTable conf level) t).nodes l = t.nodes l) ∧
      ∀ n ∈ (tables.foldl (addTable conf level) t).nodes level, n ∈ t.nodes level ∨
        ∃ o ∈ tables, nodeOf conf n.level n.seq o = .ok n := by
  induction tables generalizing t with
  | nil => exact ⟨fun _ _ => rfl, fun n hn => .inl hn⟩
  | cons o tables ih =>
    obtain ⟨hother, hmem⟩ := ih (t.addTable conf level o)
    have hadd : (∀ l, l ≠ level → (t.addTable conf level o).nodes l = t.nodes l) ∧
        ∀ n ∈ (t.addTable conf level o).nodes level, n ∈ t.nodes level ∨
          nodeOf conf n.level n.seq o = .ok n := by
      cases hnode : nodeOf conf level (t.levelToSeq level + 1) o with
      | error e =>
        unfold nodeOf at hnode
        unfold addTable finishTable
        simp only [hnode]
        exact ⟨fun _ _ => rfl, fun n hn => .inl hn⟩
      | ok m =>
        obtain ⟨hlevel, hseq, -⟩ := newNode_eq hnode
        rw [addTable_eq hnode, insertNode, hlevel]
        refine ⟨fun l hl => update_of_ne hl _ _, fun n hn => ?_⟩
        dsimp only at hn
        rw [update_self, (insertIn_perm level m _).mem_iff, mem_append, mem_singleton] at hn
        refine hn.imp_right ?_
        rintro rfl
        rwa [hlevel, hseq]
    refine ⟨fun l hl => (hother l hl).trans (hadd.1 l hl), fun n hn => ?_⟩
    rcases hmem n hn with hn | ⟨o', ho', hn⟩
    · exact (hadd.2 n hn).imp_right fun hn => ⟨o, mem_cons_self, hn⟩
    · exact .inr ⟨o', mem_cons_of_mem _ ho', hn⟩

/-- The tree `t'` is `t` with the given tables added to a level: their nodes, in the order of
their numbers, are new. -/
structure Added (conf : Config) (level : ℕ) (t t' : Tree) (tables : List (List KV))
    (new : List Node) : Prop where
  nodes_of_ne : ∀ l, l ≠ level → t'.nodes l = t.nodes l
  levelToSeq_of_ne : ∀ l, l ≠ level → t'.levelToSeq l = t.levelToSeq l
  nodes_perm : (t'.nodes level).Perm (t.nodes level ++ new)
  pairs_eq : new.map pairs = tables
  good : ∀ n ∈ new, Good conf n
  level_eq : ∀ n ∈ new, n.level = level
  levelToSeq_le : t.levelToSeq level ≤ t'.levelToSeq level
  seq_mem : ∀ n ∈ new, t.levelToSeq level < n.seq ∧ n.seq ≤ t'.levelToSeq level
  ascending : new.Pairwise (·.seq < ·.seq)

lemma Added.refl (conf : Config) (level : ℕ) (t : Tree) : Added conf level t t [] [] where
  nodes_of_ne _ _ := rfl
  levelToSeq_of_ne _ _ := rfl
  nodes_perm := by rw [append_nil]
  pairs_eq := rfl
  good _ h := absurd h not_mem_nil
  level_eq _ h := absurd h not_mem_nil
  levelToSeq_le := le_rfl
  seq_mem _ h := absurd h not_mem_nil
  ascending := .nil

lemma Added.trans {t₁ t₂ t₃ : Tree} {tables tables' : List (List KV)} {new new' : List Node}
    (h : Added conf level t₁ t₂ tables new) (h' : Added conf level t₂ t₃ tables' new') :
    Added conf level t₁ t₃ (tables ++ tables') (new ++ new') where
  nodes_of_ne l hl := (h'.nodes_of_ne l hl).trans (h.nodes_of_ne l hl)
  levelToSeq_of_ne l hl := (h'.levelToSeq_of_ne l hl).trans (h.levelToSeq_of_ne l hl)
  nodes_perm := by
    rw [← append_assoc]
    exact h'.nodes_perm.trans (h.nodes_perm.append_right new')
  pairs_eq := by rw [map_append, h.pairs_eq, h'.pairs_eq]
  good n hn := (mem_append.1 hn).elim (h.good n) (h'.good n)
  level_eq n hn := (mem_append.1 hn).elim (h.level_eq n) (h'.level_eq n)
  levelToSeq_le := h.levelToSeq_le.trans h'.levelToSeq_le
  seq_mem n hn := by
    have hle := h.levelToSeq_le
    have hle' := h'.levelToSeq_le
    rcases mem_append.1 hn with hn | hn
    · have := h.seq_mem n hn
      omega
    · have := h'.seq_mem n hn
      omega
  ascending := by
    refine pairwise_append.2 ⟨h.ascending, h'.ascending, fun a ha b hb => ?_⟩
    exact (h.seq_mem a ha).2.trans_lt (h'.seq_mem b hb).1

lemma MadeOf.levelToSeq_insertNode {n : Node} {ops : List FileOp}
    (hn : MadeOf conf level (t.levelToSeq level + 1) kvs n) :
    ((t.record ops).insertNode n).levelToSeq level = t.levelToSeq level + 1 := by
  rw [← hn.seq_eq, ← hn.level_eq]
  exact update_self _ _ _

lemma added_insertNode {n : Node} {ops : List FileOp}
    (hn : MadeOf conf level (t.levelToSeq level + 1) kvs n) :
    Added conf level t ((t.record ops).insertNode n) [kvs] [n] where
  nodes_of_ne l hl := by
    rw [← hn.level_eq] at hl
    exact update_of_ne hl _ _
  levelToSeq_of_ne l hl := by
    rw [← hn.level_eq] at hl
    exact update_of_ne hl _ _
  nodes_perm := by
    have hself : ((t.record ops).insertNode n).nodes n.level =
        insertIn n.level n (t.nodes n.level) := update_self _ _ _
    rw [← hn.level_eq, hself]
    exact insertIn_perm _ _ _
  pairs_eq := by rw [map_singleton, hn.pairs_eq]
  good m hm := mem_singleton.1 hm ▸ hn.good
  level_eq m hm := mem_singleton.1 hm ▸ hn.level_eq
  levelToSeq_le := hn.levelToSeq_insertNode.symm ▸ Nat.le_succ _
  seq_mem m hm := by
    rw [mem_singleton.1 hm, hn.levelToSeq_insertNode, hn.seq_eq]
    exact ⟨Nat.lt_succ_self _, le_rfl⟩
  ascending := pairwise_singleton _ _

end Tree

end Yukino.Lsm
