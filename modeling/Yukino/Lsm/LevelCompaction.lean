import Yukino.Lsm.LevelSearch
import Yukino.Lsm.TreeMap

set_option autoImplicit false

/-!
# Compacting a level of any tree

`compactLevel` merges the tables that meet the keys of two tables of the level, the first and the
middle one. The tree may be in any state, as long as its tables were written by `SSTWriter`, those
of each level from the first on have ascending keys from table to table, and the tables have
different numbers.

A compaction may change what `Get` returns in two ways. A newer table of level 0 is picked without
an older one that has a key of it, which is then asked first. Or a new table comes behind a first
table that stays, although its keys are smaller, or overlaps a table that stays, or has a first key
that it does not find, so that the next level does not find a key any more.

## Main definitions

* `Tree.Tabled` — a tree of tables.
* `Tree.legible` — the tables that a compaction touches find their keys before it.
* `Tree.newestFirst` — the tables that stay do not answer for a newer one that is picked.
* `Tree.placed` — the next level finds its keys once the merged tables are in it.

## Main results

* `Tree.compactLevel_keeps_get_iff` — when a compaction changes no answer.

## Design

What is found is an `Option`: a failure to read counts as an answer, as it ends `Get`.
-/

namespace Yukino.Lsm

open Layers Outcome List Function
open Bool (and_eq_true or_eq_true)
open SortedAssoc (Ascending)

namespace Tree

variable {conf : Config} {t : Tree} {level : ℕ} {n : Node} {nodes : List Node} {key : Bytes}

/-! ## Trees of tables -/

/-- The node of a table that `SSTWriter` has written. -/
def Made (conf : Config) (n : Node) : Prop :=
  ∃ kvs, kvs ≠ [] ∧ Ascending kvs ∧ Fits conf kvs ∧ nodeOf conf n.level n.seq kvs = .ok n

/-- In the levels from the first on, the keys of each table are below those of the next ones. -/
def SortedLevels (t : Tree) : Prop :=
  ∀ l, 0 < l → (t.nodes l).Pairwise fun a b => ∀ kv ∈ pairs a, ∀ kv' ∈ pairs b, kv.1 < kv'.1

/-- A tree of tables that were written by `SSTWriter`, with ascending keys from table to table in
the levels from the first on. -/
structure Tabled (conf : Config) (t : Tree) : Prop where
  made : ∀ l, ∀ n ∈ t.nodes l, Made conf n
  level_eq : ∀ l, ∀ n ∈ t.nodes l, n.level = l
  nodup : ∀ l, ((t.nodes l).map (·.seq)).Nodup
  sorted : t.SortedLevels

/-- The pairs of a table are those it was written from. -/
lemma pairs_nodeOf {seq : ℕ} {kvs : List KV} (hne : kvs ≠ []) (hfits : Fits conf kvs)
    (hn : nodeOf conf level seq kvs = .ok n) : pairs n = kvs := by
  obtain ⟨kv, rest, rfl⟩ := exists_cons_of_ne_nil hne
  obtain ⟨n', hn', -, -, -, -, hfile⟩ := exists_nodeOf conf level seq kv rest
  obtain rfl : n = n' := Except.ok.inj (hn.symm.trans hn')
  rw [pairs, Node.getAll, hfile, readData_finish hfits]

lemma Made.ascending (h : Made conf n) : Ascending (pairs n) := by
  obtain ⟨kvs, hne, hasc, hfits, hn⟩ := h
  rwa [pairs_nodeOf hne hfits hn]

/-- A table finds no other keys than its own. -/
lemma Made.get_eq_none (h : Made conf n) (hkey : (pairs n).lookup key = none) :
    n.get conf key = .ok none := by
  obtain ⟨kvs, hne, -, hfits, hn⟩ := h
  rw [pairs_nodeOf hne hfits hn] at hkey
  exact get_nodeOf_eq_none hne hfits.short hn hkey

/-- The keys that tables have a value for are those of their pairs. -/
lemma newest_values_ne_none (hmade : ∀ n ∈ nodes, Made conf n) (key : Bytes) :
    newest (values nodes key) ≠ none ↔ ∃ n ∈ nodes, ∃ kv ∈ pairs n, kv.1 = key := by
  constructor
  · intro hne
    obtain ⟨v, hv⟩ := Option.ne_none_iff_exists'.1 hne
    obtain ⟨n, hn, hv⟩ := some_mem_values.1 (mem_of_newest hv)
    exact ⟨n, hn, (key, v), (hmade n hn).ascending.lookup_eq_some_iff.1 hv, rfl⟩
  · rintro ⟨n, hn, ⟨k, v⟩, hkv, rfl⟩ hnone
    have hv := (hmade n hn).ascending.lookup_eq_some_iff.2 hkv
    have := newest_eq_none_iff.1 hnone _ (mem_map_of_mem hn)
    rw [hv] at this
    cases this

/-! ## What is found -/

/-- What is found for a key in the memtables and in the levels in front of a level. -/
def findsAbove (conf : Config) (t : Tree) (level : ℕ) (key : Bytes) :
    Option (Except Fault Bytes) :=
  ((t.inMemory key).map .ok).or
    ((List.range level).findSome? fun l => finds conf l (t.nodes l) key)

/-- What is found for a key behind the next level. -/
def findsBelow (conf : Config) (t : Tree) (level : ℕ) (key : Bytes) :
    Option (Except Fault Bytes) :=
  (List.range' (level + 2) (conf.maxLevel - (level + 2))).findSome? fun l =>
    finds conf l (t.nodes l) key

/-- The table finds each of its keys. -/
def findsAll (conf : Config) (n : Node) : Bool :=
  (pairs n).all fun kv => n.get conf kv.1 = .ok (some kv.2)

/-- A level from the first on finds each key of its tables. -/
def levelFindsAll (conf : Config) (nodes : List Node) : Bool :=
  nodes.all fun n => (pairs n).all fun kv => getLevel conf nodes kv.1 = .ok (some kv.2)

/-- The tables of the next level after a compaction: those that stay and the merged ones. -/
def nextLevel (conf : Config) (t : Tree) (level : ℕ) : List Node :=
  (t.compacted conf level).nodes (level + 1)

/-- What the next level should have for a key after a compaction: the value in the merged pairs, or
else in the tables that stay. -/
def meant (t : Tree) (level : ℕ) (key : Bytes) : Option Bytes :=
  ((pickedNodesToKVs (t.pickCompactNodes level)).lookup key).or
    (newest (values (t.staying level (level + 1)) key))

/-- Before the compaction, the tables that it touches find their keys: those of level 0 that are
picked, or else the level, with and without them, and the next level. -/
def legible (conf : Config) (t : Tree) (level : ℕ) : Bool :=
  (if level = 0 then ((t.nodes level).filter (t.picks level)).all (findsAll conf)
    else levelFindsAll conf (t.nodes level) && levelFindsAll conf (t.staying level level)) &&
  levelFindsAll conf (t.nodes (level + 1))

/-- For each key of a picked table of the level that is not found above it, the tables that stay
have no answer, or that of the whole level. -/
def newestFirst (conf : Config) (t : Tree) (level : ℕ) : Bool :=
  ((t.nodes level).filter (t.picks level)).all fun n => (pairs n).all fun kv =>
    (t.findsAbove conf level kv.1).isSome ||
      (finds conf level (t.staying level level) kv.1 = none ||
        finds conf level (t.staying level level) kv.1 = finds conf level (t.nodes level) kv.1)

/-- Each key of the next level, with the merged tables in their places, that is not found in front
of it is found there, or else with the same value behind it. -/
def placed (conf : Config) (t : Tree) (level : ℕ) : Bool :=
  (t.staying level (level + 1) ++ t.pickCompactNodes level).all fun n => (pairs n).all fun kv =>
    (t.findsAbove conf level kv.1).isSome ||
      ((finds conf level (t.staying level level) kv.1).isSome ||
        (finds conf (level + 1) (t.nextLevel conf level) kv.1).or (t.findsBelow conf level kv.1) =
          (t.meant level kv.1).map .ok)

/-- The places that `Get` asks, cut at the two levels of a compaction. -/
lemma found_get_cut (t : Tree) (hlevel : level + 1 < conf.maxLevel) (key : Bytes) :
    found (t.get conf key) = (t.findsAbove conf level key).or
      ((finds conf level (t.nodes level) key).or
        ((finds conf (level + 1) (t.nodes (level + 1)) key).or (t.findsBelow conf level key))) := by
  rw [found_get, findSome?_range _ hlevel, findsAbove, findsBelow, Option.or_assoc]

/-- A level from the first on that finds all its keys finds nothing else. -/
lemma finds_of_levelFindsAll (hlevel : level ≠ 0) (hmade : ∀ n ∈ nodes, Made conf n)
    (hall : levelFindsAll conf nodes = true) (key : Bytes) :
    finds conf level nodes key = (newest (values nodes key)).map .ok := by
  rw [finds, if_neg hlevel, ← found_ok]
  congr 1
  simp only [levelFindsAll, all_eq_true, decide_eq_true_eq] at hall
  cases hnewest : newest (values nodes key) with
  | some v =>
    obtain ⟨n, hn, hv⟩ := some_mem_values.1 (mem_of_newest hnewest)
    exact hall n hn (key, v) ((hmade n hn).ascending.lookup_eq_some_iff.1 hv)
  | none =>
    have hnone := newest_eq_none_iff.1 hnewest
    unfold getLevel
    split
    · rfl
    next n hsearch =>
    obtain ⟨j, -, hj⟩ := exists_of_levelBinarySearch_eq_some hsearch
    have hn := mem_of_getElem? hj
    exact (hmade n hn).get_eq_none (hnone _ (mem_map_of_mem hn))

/-! ## The tree after a compaction -/

section Compaction

variable (h : Tabled conf t) (hne : t.nodes level ≠ [])
include h hne

/-- **The reads after a compaction**: the level has the tables that stay, the next one those and
the merged ones, and all other places are as before. -/
lemma Tabled.found_get_compactLevel (hlevel : level + 1 < conf.maxLevel) (key : Bytes) :
    found ((t.compactLevel conf level).get conf key) = (t.findsAbove conf level key).or
      ((finds conf level (t.staying level level) key).or
        ((finds conf (level + 1) (t.nextLevel conf level) key).or
          (t.findsBelow conf level key))) := by
  obtain ⟨ops, heq⟩ := compactLevel_eq conf hne
  obtain ⟨hstay, hother⟩ := nodes_compacted conf h.level_eq h.nodup hne
  obtain ⟨habove, hbelow⟩ := findSome?_range_congr
    (fun l hl hl' => congrArg (fun nodes => finds conf l nodes key) (hother l hl hl'))
    (conf.maxLevel - (level + 2))
  have hnodes : (t.compactLevel conf level).nodes = (t.compacted conf level).nodes := by
    rw [heq, tryTriggerCompact_only]
  have hmemory : (t.compactLevel conf level).inMemory key = t.inMemory key := by
    rw [heq, tryTriggerCompact_only, compacted_only]
    rfl
  rw [found_get_cut _ hlevel, findsAbove, findsBelow, hmemory, hnodes, hstay, habove, hbelow]
  rfl

lemma Tabled.made_pick : ∀ n ∈ t.pickCompactNodes level, Made conf n := by
  intro n hn
  rw [pickCompactNodes_eq hne] at hn
  rcases mem_append.1 hn with hn | hn <;> exact h.made _ n (mem_of_mem_filter hn)

/-- The next level should have the values of the tables that stay there and of the picked ones. -/
lemma Tabled.meant_eq_newest (key : Bytes) : t.meant level key =
    newest (values (t.staying level (level + 1) ++ t.pickCompactNodes level) key) := by
  rw [meant, lookup_pickedNodesToKVs fun n hn => (h.made_pick hne n hn).ascending, values_append,
    newest_append]

/-- The next level should have what the picked tables of the level had, or else the next level. -/
lemma Tabled.meant_eq (key : Bytes) : t.meant level key =
    (newest (values ((t.nodes level).filter (t.picks level)) key)).or
      (newest (values (t.nodes (level + 1)) key)) := by
  -- at most one table of the next level has the key
  have hover : NoneOver (fun n => !t.picks level n) (fun n => (pairs n).lookup key)
      (t.nodes (level + 1)) := by
    refine (h.sorted (level + 1) (Nat.succ_pos _)).imp_of_mem fun {a b} ha hb hlt _ _ => ?_
    by_contra hnot
    rw [not_or, ← Ne, ← Ne, Option.ne_none_iff_exists', Option.ne_none_iff_exists'] at hnot
    obtain ⟨⟨v, hv⟩, w, hw⟩ := hnot
    exact lt_irrefl key (hlt _ ((h.made _ a ha).ascending.lookup_eq_some_iff.1 hv) _
      ((h.made _ b hb).ascending.lookup_eq_some_iff.1 hw))
  have hnext := newest_filter hover none
  simp only [Option.or_none, Bool.not_not] at hnext
  rw [h.meant_eq_newest hne, pickCompactNodes_eq hne, values_append, values_append, newest_append,
    newest_append, Option.or_assoc]
  exact congrArg _ hnext.symm

/-- A key that is in no table of the next level, and in none that is merged into it, is not found
there. -/
lemma Tabled.finds_nextLevel (hfits : ∀ o ∈ t.merged conf level, Fits conf o)
    (hkey : t.meant level key = none) :
    finds conf (level + 1) (t.nextLevel conf level) key = none := by
  have hsplit := hkey
  rw [h.meant_eq hne, Option.or_eq_none_iff] at hsplit
  have hmerged : (pickedNodesToKVs (t.pickCompactNodes level)).lookup key = none :=
    (Option.or_eq_none_iff.1 hkey).1
  have hnone : ∀ n ∈ t.nextLevel conf level, n.get conf key = .ok none := by
    intro n hn
    rw [nextLevel, compacted, removeNodes_nodes, if_pos (.inr rfl)] at hn
    rcases (nodes_foldl_addTable conf (level + 1) (t.merged conf level) t).2 n
      (mem_of_mem_filter hn) with hn | ⟨o, ho, hn⟩
    · exact (h.made _ n hn).get_eq_none
        (newest_eq_none_iff.1 hsplit.2 _ (mem_map_of_mem hn))
    · have hone := ne_nil_of_mem_outputs ho
      refine get_nodeOf_eq_none hone (hfits o ho).short hn ?_
      rw [Option.eq_none_iff_forall_ne_some]
      intro v hv
      have hmem := (some_mem_outputs (ascending_pickedNodesToKVs _) key v).1
        (mem_map.2 ⟨o, ho, hv⟩)
      rw [hmerged] at hmem
      cases hmem
  rw [finds, if_neg (Nat.succ_ne_zero _), getLevel]
  split
  · rfl
  next n hsearch =>
  obtain ⟨j, -, hj⟩ := exists_of_levelBinarySearch_eq_some hsearch
  rw [hnone n (mem_of_getElem? hj)]
  rfl

omit hne in
/-- **The reads of the level.** Where the tables that stay have no answer, the level answers with
the picked ones; where these have none, it answers with those that stay; and it has an answer
wherever those that stay have one. -/
lemma Tabled.finds_level (hread : t.legible conf level = true) (key : Bytes) :
    (finds conf level (t.staying level level) key = none → finds conf level (t.nodes level) key =
      (newest (values ((t.nodes level).filter (t.picks level)) key)).map .ok) ∧
    (newest (values ((t.nodes level).filter (t.picks level)) key) = none →
      finds conf level (t.nodes level) key = finds conf level (t.staying level level) key) ∧
    (finds conf level (t.nodes level) key = none →
      finds conf level (t.staying level level) key = none) := by
  -- what each table answers
  obtain ⟨f, hpicked, hwhole, hstay⟩ : ∃ f : Node → Option (Except Fault Bytes),
      (∀ n ∈ t.nodes level, t.picks level n = true → f n = ((pairs n).lookup key).map .ok) ∧
      finds conf level (t.nodes level) key = newest ((t.nodes level).map f) ∧
      finds conf level (t.staying level level) key = newest ((t.staying level level).map f) := by
    rw [legible, and_eq_true] at hread
    split_ifs at hread with hzero
    · refine ⟨fun n => found (n.get conf key), fun n hn hpick => ?_, ?_, ?_⟩
      · have hall := all_eq_true.1 hread.1 n (mem_filter.2 ⟨hn, hpick⟩)
        simp only [findsAll, all_eq_true, decide_eq_true_eq] at hall
        rw [← found_ok]
        refine congrArg found ?_
        cases hv : (pairs n).lookup key with
        | none => exact (h.made _ n hn).get_eq_none hv
        | some v => exact hall (key, v) ((h.made _ n hn).ascending.lookup_eq_some_iff.1 hv)
      · rw [finds, if_pos hzero, found_getFrom]
      · rw [finds, if_pos hzero, found_getFrom]
    · rw [and_eq_true] at hread
      have hmap : ∀ nodes : List Node, newest (nodes.map fun n => ((pairs n).lookup key).map
          (Except.ok (ε := Fault))) = (newest (values nodes key)).map .ok := by
        intro nodes
        rw [← newest_map, values, map_map]
        rfl
      refine ⟨fun n => ((pairs n).lookup key).map .ok, fun _ _ _ => rfl, ?_, ?_⟩
      · rw [hmap]
        exact finds_of_levelFindsAll hzero (h.made level) hread.1.1 key
      · rw [hmap]
        exact finds_of_levelFindsAll hzero (fun n hn => h.made level n (mem_of_mem_filter hn))
          hread.1.2 key
  have hmap : newest (((t.nodes level).filter (t.picks level)).map f) =
      (newest (values ((t.nodes level).filter (t.picks level)) key)).map .ok := by
    rw [← newest_map, values, map_map]
    congr 1
    exact map_congr_left fun n hn => hpicked n (mem_filter.1 hn).1 (mem_filter.1 hn).2
  have hsplit : ((∀ n ∈ t.staying level level, f n = none) ∨
      ∀ n ∈ (t.nodes level).filter (t.picks level), f n = none) →
      newest ((t.nodes level).map f) = (newest ((t.staying level level).map f)).or
        (newest (((t.nodes level).filter (t.picks level)).map f)) := by
    intro hnone
    have hover : NoneOver (t.picks level) f (t.nodes level) := by
      refine pairwise_of_forall_mem_list fun a ha b hb hpa hpb => ?_
      refine hnone.imp (fun hn => hn a ?_) fun hn => hn b ?_
      · exact mem_filter.2 ⟨ha, by rw [hpa]; rfl⟩
      · exact mem_filter.2 ⟨hb, hpb⟩
    have := newest_filter hover none
    rwa [Option.or_none, Option.or_none] at this
  rw [hwhole, hstay]
  refine ⟨fun hnone => ?_, fun hnone => ?_, fun hnone => ?_⟩
  · have hall := newest_eq_none_iff.1 hnone
    rw [hsplit (.inl fun n hn => hall _ (mem_map_of_mem hn)), hnone, Option.none_or, hmap]
  · rw [hnone] at hmap
    have hall := newest_eq_none_iff.1 hmap
    rw [hsplit (.inr fun n hn => hall _ (mem_map_of_mem hn)), hmap]
    exact Option.or_none
  · rw [newest_eq_none_iff] at hnone ⊢
    intro a ha
    obtain ⟨n, hn, rfl⟩ := mem_map.1 ha
    exact hnone _ (mem_map_of_mem (mem_of_mem_filter hn))

/-- **One key.** It is read as before if and only if no table that stays in the level answers in
place of a newer one, and the next level, where it is asked, has what it should have. -/
lemma Tabled.get_compactLevel_iff (hlevel : level + 1 < conf.maxLevel)
    (hread : t.legible conf level = true) (key : Bytes) :
    (t.compactLevel conf level).get conf key = t.get conf key ↔
      (t.findsAbove conf level key ≠ none ∨ finds conf level (t.staying level level) key = none ∨
        finds conf level (t.staying level level) key = finds conf level (t.nodes level) key) ∧
      (t.findsAbove conf level key ≠ none ∨ finds conf level (t.staying level level) key ≠ none ∨
        (finds conf (level + 1) (t.nextLevel conf level) key).or (t.findsBelow conf level key) =
          ((t.meant level key).map .ok).or (t.findsBelow conf level key)) := by
  have hnext : finds conf (level + 1) (t.nodes (level + 1)) key =
      (newest (values (t.nodes (level + 1)) key)).map .ok := by
    rw [legible, and_eq_true] at hread
    exact finds_of_levelFindsAll (Nat.succ_ne_zero _) (h.made _) hread.2 key
  obtain ⟨hpicked, -, hsome⟩ := h.finds_level hread key
  rw [← found_inj, h.found_get_compactLevel hne hlevel, found_get_cut t hlevel]
  cases t.findsAbove conf level key with
  | some v => simp
  | none =>
    cases hstay : finds conf level (t.staying level level) key with
    | some v =>
      -- the level is asked last, before and after
      obtain ⟨w, hw⟩ := Option.ne_none_iff_exists'.1 fun hnone =>
        Option.some_ne_none v (hstay.symm.trans (hsome hnone))
      simp [hw]
    | none => simp [hpicked hstay, hnext, h.meant_eq hne, Option.map_or, Option.or_assoc]

end Compaction

/-- The tree with the tables of the given pairs in level 0. -/
def levelZero (conf : Config) (tables : List (List KV)) : Tree :=
  let nodes := tables.zipIdx.filterMap fun x => (nodeOf conf 0 x.2 x.1).toOption
  { new with nodes := fun l => if l = 0 then nodes else [] }

lemma tabled_levelZero {tables : List (List KV)}
    (h : ∀ kvs ∈ tables, kvs ≠ [] ∧ Ascending kvs ∧ Fits conf kvs)
    (hnodup : (((levelZero conf tables).nodes 0).map (·.seq)).Nodup) :
    Tabled conf (levelZero conf tables) := by
  have hnodes : ∀ l, l ≠ 0 → (levelZero conf tables).nodes l = [] := fun l hl => if_neg hl
  have hmade : ∀ l, ∀ n ∈ (levelZero conf tables).nodes l, Made conf n ∧ n.level = l := by
    intro l n hn
    rcases eq_or_ne l 0 with rfl | hl
    · obtain ⟨⟨kvs, i⟩, hx, hnode⟩ := mem_filterMap.1 hn
      obtain ⟨hne, hasc, hfits⟩ := h kvs (fst_mem_of_mem_zipIdx hx)
      have hnode : nodeOf conf 0 i kvs = .ok n := by
        revert hnode
        cases nodeOf conf 0 i kvs <;> simp [Except.toOption]
      obtain ⟨hlevel, hseq, -⟩ := newNode_eq hnode
      exact ⟨⟨kvs, hne, hasc, hfits, by rwa [hlevel, hseq]⟩, hlevel⟩
    · rw [hnodes l hl] at hn
      cases hn
  refine ⟨fun l n hn => (hmade l n hn).1, fun l n hn => (hmade l n hn).2, fun l => ?_,
    fun l hl => ?_⟩
  · rcases eq_or_ne l 0 with rfl | hl
    · exact hnodup
    · rw [hnodes l hl]
      exact nodup_nil
  · rw [hnodes l hl.ne']
    exact .nil

instance decidableFits (conf : Config) (kvs : List KV) : Decidable (Fits conf kvs) :=
  decidable_of_iff ((∀ kv ∈ kvs, kv.1.length < 2 ^ 64 ∧ kv.2.length < 2 ^ 64) ∧
    ((SSTWriter.appendAll conf {} kvs).finish conf).size < 2 ^ 56)
    ⟨fun h => ⟨h.1, h.2⟩, fun h => ⟨h.short, h.size⟩⟩

end Tree

end Yukino.Lsm
