import Yukino.Lsm.Compaction

set_option autoImplicit false

/-!
# The place of a table in its level

A level from the first on is searched by halving, so its nodes must be in order of their keys.
`insertNodeWithReader` puts a node in front of the first one that starts behind its end, but never
in front of the first node of the level, and it does so while the nodes that the new one replaces
are still there.

## Main definitions

* `keyRange` — the keys between which pairs are looked for, once they are a table.
* `clear` — a range does not meet one that is there before it.
* `Tree.Spread` — the nodes of a level that stay are in order, and those that will go
  do not mislead the insertion.
* `Tree.Numbered` — nodes made of tables, with numbers one after another.

## Main results

* `Tree.Numbered.addTables_eq` — tables that are added become nodes that are inserted.
* `Tree.foldl_insertNode_nodes` — a level gets the nodes that are its own.
* `Tree.Spread.foldl` — nodes that are clear of those that stay keep the level spread.
-/

namespace Yukino.Lsm

open Layers Outcome List
open SortedAssoc (Ascending)

/-- The keys between which pairs are looked for, once they are a table: the separator in front of
the first key, and the last key. -/
def keyRange (kvs : List KV) : Bytes × Bytes :=
  (getSeparatorBetween [] (firstKey [] kvs), lastKey [] kvs)

def Node.range (n : Node) : Bytes × Bytes :=
  (n.startKey, n.endKey)

/-- The range `b` is behind `a`, or so far in front of it that `insertNodeWithReader` notices. -/
def clear (a b : Bytes × Bytes) : Bool :=
  a.2 ≤ b.1 || b.2 < a.1

lemma clear_iff {a b : Bytes × Bytes} : clear a b = true ↔ a.2 ≤ b.1 ∨ b.2 < a.1 := by
  simp [clear]

/-- The node of a table lies between the separator in front of the first key and the last key. -/
lemma range_nodeOf {conf : Config} {level seq : ℕ} {kvs : List KV} {n : Node} (hne : kvs ≠ [])
    (hn : nodeOf conf level seq kvs = .ok n) : n.range = keyRange kvs := by
  obtain ⟨kv, rest, rfl⟩ := exists_cons_of_ne_nil hne
  obtain ⟨n', hn', hstart, hend, -⟩ := exists_nodeOf conf level seq kv rest
  obtain rfl : n = n' := Except.ok.inj (hn.symm.trans hn')
  rw [Node.range, hstart, hend]
  rfl

namespace Tree

variable {conf : Config} {t : Tree} {level seq : ℕ} {kvs : List KV} {n first : Node}
  {nodes rest new : List Node} {gone : Node → Bool} {tables : List (List KV)}

/-- The range of a node is that of the pairs it was made of. -/
lemma MadeOf.range_eq (h : MadeOf conf level seq kvs n) : n.range = keyRange kvs :=
  range_nodeOf h.holds.ne_nil h.made

/-! ## Inserting one node after another -/

/-- Nodes made of tables, with numbers from `seq` on. -/
inductive Numbered (conf : Config) (level : ℕ) : ℕ → List (List KV) → List Node → Prop
  | nil (seq : ℕ) : Numbered conf level seq [] []
  | cons {seq : ℕ} {kvs : List KV} {tables : List (List KV)} {n : Node} {new : List Node}
      (hn : MadeOf conf level seq kvs n) (hnew : Numbered conf level (seq + 1) tables new) :
      Numbered conf level seq (kvs :: tables) (n :: new)

/-- What is done to the files for tables with numbers from `seq` on. -/
def tablesOps (conf : Config) (level : ℕ) : ℕ → List (List KV) → List FileOp
  | _, [] => []
  | seq, kvs :: tables => tableOps conf level seq kvs ++ tablesOps conf level (seq + 1) tables

lemma Numbered.ranges_eq (h : Numbered conf level seq tables new) :
    new.map Node.range = tables.map keyRange := by
  induction h with
  | nil => rfl
  | cons hn hnew ih => rw [map_cons, map_cons, hn.range_eq, ih]

lemma Numbered.exists_madeOf (h : Numbered conf level seq tables new)
    (hn : n ∈ new) : ∃ s kvs, seq ≤ s ∧ kvs ∈ tables ∧ MadeOf conf level s kvs n := by
  induction h with
  | nil => cases hn
  | cons hfirst hnew ih =>
    rcases mem_cons.1 hn with rfl | hn
    · exact ⟨_, _, le_rfl, mem_cons_self, hfirst⟩
    · obtain ⟨s, o, hs, ho, hmade⟩ := ih hn
      exact ⟨s, o, Nat.le_of_succ_le hs, mem_cons_of_mem _ ho, hmade⟩

/-- Tables of pairs with ascending keys that can be written. -/
structure Tables (conf : Config) (tables : List (List KV)) : Prop where
  ne_nil : ∀ o ∈ tables, o ≠ []
  ascending : ∀ o ∈ tables, Ascending o
  writable : ∀ o ∈ tables, writable conf o = true

lemma Tables.exists_numbered (h : Tables conf tables) (level seq : ℕ) :
    ∃ new, Numbered conf level seq tables new := by
  induction tables generalizing seq with
  | nil => exact ⟨[], .nil seq⟩
  | cons o tables ih =>
    obtain ⟨hne, hne'⟩ := forall_mem_cons.1 h.ne_nil
    obtain ⟨hasc, hasc'⟩ := forall_mem_cons.1 h.ascending
    obtain ⟨hok, hok'⟩ := forall_mem_cons.1 h.writable
    obtain ⟨n, hn⟩ := exists_madeOf hne hasc hok level seq
    obtain ⟨new, hnew⟩ := ih ⟨hne', hasc', hok'⟩ (seq + 1)
    exact ⟨n :: new, .cons hn hnew⟩

/-- The number of a table that was added is the last one of its level. -/
lemma MadeOf.levelToSeq_addTable (h : MadeOf conf level (t.levelToSeq level + 1) kvs n) :
    (t.addTable conf level kvs).levelToSeq level = t.levelToSeq level + 1 := by
  rw [addTable_eq h.made]
  show Function.update t.levelToSeq n.level n.seq level = _
  rw [h.level_eq, Function.update_self, h.seq_eq]

lemma Numbered.added (h : Numbered conf level (t.levelToSeq level + 1) tables new) :
    Added conf level t (tables.foldl (addTable conf level) t) tables new := by
  induction tables generalizing t new with
  | nil =>
    cases h
    exact .refl conf level t
  | cons o tables ih =>
    obtain _ | ⟨hn, hnew⟩ := h
    have hfirst : Added conf level t (t.addTable conf level o) [o] [_] :=
      addTable_eq hn.made ▸ added_insertNode hn
    exact hfirst.trans (ih (by rwa [hn.levelToSeq_addTable]))

/-- **Tables that are added** become nodes that are inserted one after another. -/
lemma Numbered.addTables_eq
    (h : Numbered conf level (t.levelToSeq level + 1) tables new) :
    tables.foldl (addTable conf level) t = new.foldl insertNode
      (t.record (tablesOps conf level (t.levelToSeq level + 1) tables)) := by
  induction tables generalizing t new with
  | nil =>
    cases h
    simp [tablesOps, record]
  | cons o tables ih =>
    obtain _ | ⟨hn, hnew⟩ := h
    have hseq := hn.levelToSeq_addTable
    have hrecord : ∀ (t : Tree) (ops ops' : List FileOp) (n : Node),
        ((t.record ops).insertNode n).record ops' = (t.record (ops ++ ops')).insertNode n := by
      intro t ops ops' n
      simp only [record, insertNode, append_assoc]
    rw [foldl_cons, foldl_cons, ih (by rwa [hseq]), hseq, addTable_eq hn.made, tablesOps, hrecord]

/-- **A level gets the nodes that are its own**, in their order. -/
lemma foldl_insertNode_nodes (new : List Node) (t : Tree) (l : ℕ) :
    (new.foldl insertNode t).nodes l =
      (new.filter (·.level = l)).foldl (fun nodes n => insertIn l n nodes) (t.nodes l) := by
  induction new generalizing t with
  | nil => rfl
  | cons n new ih =>
    rw [foldl_cons, ih]
    by_cases hl : n.level = l
    · subst hl
      simp [insertNode]
    · have hl' : l ≠ n.level := fun h => hl h.symm
      simp [insertNode, hl, hl']

/-! ## Nodes in order -/

/-- Behind the first node: no node starts behind the end of a later one, and of those that stay
each is behind the earlier ones. -/
def TailSpread (gone : Node → Bool) (nodes : List Node) : Prop :=
  nodes.Pairwise fun a b => a.startKey ≤ b.endKey ∧
    (gone a = false → gone b = false → a.endKey ≤ b.startKey)

/-- The nodes of a level, of which some will go. -/
def Spread (gone : Node → Bool) : List Node → Prop
  | [] => True
  | first :: nodes => (∀ b ∈ nodes, gone first = false → gone b = false →
      first.endKey ≤ b.startKey) ∧ TailSpread gone nodes

lemma InOrder.spread (h : InOrder nodes) (hkeys : ∀ a ∈ nodes, a.startKey < a.endKey)
    (gone : Node → Bool) : Spread gone nodes := by
  cases nodes with
  | nil => trivial
  | cons first nodes =>
    obtain ⟨hfirst, hnodes⟩ := pairwise_cons.1 h
    obtain ⟨-, hkeys⟩ := forall_mem_cons.1 hkeys
    refine ⟨fun b hb _ _ => hfirst b hb, hnodes.imp_of_mem fun {a b} ha hb hle => ?_⟩
    exact ⟨((hkeys a ha).trans_le hle).le.trans (hkeys b hb).le, fun _ _ => hle⟩

/-- The nodes that stay are in order. -/
lemma Spread.inOrder (h : Spread gone nodes) : InOrder (nodes.filter fun n => !gone n) := by
  have hpair : nodes.Pairwise fun a b =>
      gone a = false → gone b = false → a.endKey ≤ b.startKey := by
    cases nodes with
    | nil => exact .nil
    | cons first nodes => exact pairwise_cons.2 ⟨h.1, h.2.imp fun hab => hab.2⟩
  refine (hpair.sublist filter_sublist).imp_of_mem fun {a b} ha hb hab => ?_
  have hga := (mem_filter.1 ha).2
  have hgb := (mem_filter.1 hb).2
  rw [Bool.not_eq_true'] at hga hgb
  exact hab hga hgb

/-- **One node is inserted** behind the first node.

**Proof sketch.** It goes in front of the first node `a` that starts behind its end. A later node
that stays is clear of the new one, and cannot be in front of it: it would end in front of `a`. -/
lemma TailSpread.insertBehind (h : TailSpread gone nodes) (hn : n.startKey < n.endKey)
    (hkeys : ∀ a ∈ nodes, a.startKey < a.endKey)
    (hclear : ∀ a ∈ nodes, gone a = false → clear a.range n.range = true) :
    TailSpread gone (insertBehind n nodes) := by
  induction nodes with
  | nil => exact pairwise_singleton _ _
  | cons a nodes ih =>
    obtain ⟨ha, hnodes⟩ := pairwise_cons.1 h
    obtain ⟨hka, hkeys⟩ := forall_mem_cons.1 hkeys
    unfold Tree.insertBehind
    split_ifs with hlt
    · refine pairwise_cons.2 ⟨fun b hb => ?_, h⟩
      have hend : a.startKey ≤ b.endKey := by
        rcases mem_cons.1 hb with rfl | hb
        · exact hka.le
        · exact (ha b hb).1
      refine ⟨((hn.trans hlt).trans_le hend).le, fun _ hgb => ?_⟩
      rcases clear_iff.1 (hclear b hb hgb) with hle | hlt'
      · have hbn : b.endKey ≤ n.startKey := hle
        exact absurd (hend.trans hbn) (not_le.2 (hn.trans hlt))
      · exact le_of_lt hlt'
    · obtain ⟨hca, hclear⟩ := forall_mem_cons.1 hclear
      refine pairwise_cons.2 ⟨fun b hb => ?_, ih hnodes hkeys hclear⟩
      have hb' : b ∈ nodes ++ [n] := (insertBehind_perm n nodes).mem_iff.1 hb
      rcases mem_append.1 hb' with hb' | hb'
      · exact ha b hb'
      · obtain rfl := mem_singleton.1 hb'
        refine ⟨not_lt.1 hlt, fun hga _ => ?_⟩
        exact (clear_iff.1 (hca hga)).resolve_right hlt

/-- **Nodes are inserted one after another**, behind the first node of the level. -/
lemma Spread.foldl (hlevel : level ≠ 0) (h : Spread gone (first :: rest))
    (hkeys : ∀ a ∈ first :: rest, a.startKey < a.endKey)
    (hnew : ∀ n ∈ new, n.startKey < n.endKey)
    (hclear : ∀ a ∈ first :: rest, gone a = false → ∀ n ∈ new, clear a.range n.range = true)
    (hpair : new.Pairwise fun a b => clear a.range b.range = true)
    (hfirst : gone first = false → ∀ n ∈ new, first.endKey ≤ n.startKey) :
    Spread gone (new.foldl (fun nodes n => insertIn level n nodes) (first :: rest)) := by
  induction new generalizing rest with
  | nil => exact h
  | cons n new ih =>
    obtain ⟨hn, hpair⟩ := pairwise_cons.1 hpair
    obtain ⟨hkn, hnew⟩ := forall_mem_cons.1 hnew
    obtain ⟨hkf, hkeys⟩ := forall_mem_cons.1 hkeys
    have hmem : ∀ b ∈ insertBehind n rest, b ∈ rest ∨ b = n := by
      intro b hb
      have hb' : b ∈ rest ++ [n] := (insertBehind_perm n rest).mem_iff.1 hb
      simpa using hb'
    have hins : insertIn level n (first :: rest) = first :: insertBehind n rest := by
      rw [insertIn, if_neg hlevel]
    rw [foldl_cons, hins]
    refine ih ⟨fun b hb hg hgb => ?_, h.2.insertBehind hkn hkeys
      fun a ha hga => hclear a (mem_cons_of_mem _ ha) hga n mem_cons_self⟩
      (forall_mem_cons.2 ⟨hkf, fun a ha => ?_⟩) hnew ?_ hpair
      fun hg m hm => hfirst hg m (mem_cons_of_mem _ hm)
    · rcases hmem b hb with hb | rfl
      · exact h.1 b hb hg hgb
      · exact hfirst hg b mem_cons_self
    · rcases hmem a ha with ha | rfl
      · exact hkeys a ha
      · exact hkn
    · intro a ha hga m hm
      rcases mem_cons.1 ha with rfl | ha
      · exact hclear a mem_cons_self hga m (mem_cons_of_mem _ hm)
      · rcases hmem a ha with ha | rfl
        · exact hclear a (mem_cons_of_mem _ ha) hga m (mem_cons_of_mem _ hm)
        · exact hn m hm

/-- **A level is filled** node by node: the first one stays the first. -/
lemma Spread.of_foldl_nil (hlevel : level ≠ 0) (hnew : ∀ n ∈ new, n.startKey < n.endKey)
    (hpair : new.Pairwise fun a b => clear a.range b.range = true)
    (hfirst : ∀ first rest, new = first :: rest → ∀ n ∈ rest, first.endKey ≤ n.startKey)
    (gone : Node → Bool) :
    Spread gone (new.foldl (fun nodes n => insertIn level n nodes) []) := by
  cases new with
  | nil => trivial
  | cons first rest =>
    obtain ⟨hclear, hpair⟩ := pairwise_cons.1 hpair
    obtain ⟨hkey, hnew⟩ := forall_mem_cons.1 hnew
    have hins : insertIn level first [] = [first] := if_neg hlevel
    rw [foldl_cons, hins]
    refine Spread.foldl hlevel ⟨fun b hb => absurd hb not_mem_nil, .nil⟩
      (forall_mem_singleton.2 hkey) hnew (forall_mem_singleton.2 fun _ => hclear) hpair
      fun _ n hn => hfirst first rest rfl n hn

end Tree

end Yukino.Lsm
