import Yukino.Lsm.TableFile
import Yukino.Lsm.LevelCompaction

set_option autoImplicit false

/-!
# The order of the flushes

Each rotation starts a goroutine of its own that sends the old memtable to the compaction loop, so
the loop may receive the memtables in any order. `compactMemTable` writes the one that it receives
to the newest table of level 0, and then forgets it together with all older ones. A memtable that
is received before an older one makes `Get` miss the older one, until it is flushed too, and from
then on its table counts as the newest.

## Main definitions

* `Flushes` — a tree with the memtables that were rotated and received so far.
* `Flushes.Right` — reads, read-only memtables and level 0 follow the order of rotation.
* `Flushes.inOrder` — the condition on a step: the oldest waiting memtable is received.

## Main results

* `Flushes.InTurn.inOrder_of_right` — a memtable that is received out of turn is seen.
* `Flushes.Flushed.step` — what a step in the order of rotation keeps.
* `Flushes.right_of_inOrder` — the deliveries that are right all along are in the order
  of rotation, and those in the order of rotation are right.
-/

namespace Yukino.Lsm

open Layers Outcome List Option

/-- A tree with the memtables that were rotated so far, the oldest first, and the logs of those that
the compaction loop has received. -/
structure Flushes where
  tree : Tree := Tree.new
  rotated : List MemTableCompactItem := []
  received : List ℕ := []

/-- A call of `Put`, or the delivery of the memtable with this log. -/
inductive Delivery
  | put (key value : Bytes)
  | receive (walFile : ℕ)
  deriving DecidableEq

namespace Flushes

variable {conf : Config} {s s' : Flushes} {item : MemTableCompactItem}
  {rest : List MemTableCompactItem}

/-- A call of `Put` may rotate the memtable, and a delivery is a step of the compaction loop. -/
def step (conf : Config) (s : Flushes) : Delivery → Option Flushes
  | .put key value =>
    let t := s.tree.put conf key value
    some { s with
      tree := t
      rotated := s.rotated ++ t.rOnlyMemTable.drop s.tree.rOnlyMemTable.length }
  | .receive walFile => (s.tree.step conf (.compactMemTable walFile)).map fun t =>
    { s with
      tree := t
      received := s.received ++ [walFile] }

/-- The value of the newest memtable that has the key. -/
def newestValue (s : Flushes) (key : Bytes) : Option Bytes :=
  (s.tree.memTable.get key).or (newest (s.rotated.map (·.memTable.get key)))

/-- The memtables are read, kept and written in the order of their rotation. -/
structure Right (conf : Config) (s : Flushes) : Prop where
  get_eq : ∀ key, s.tree.get conf key = .ok (s.newestValue key)
  kept : ∀ item ∈ s.rotated, item ∈ s.tree.rOnlyMemTable ∨ item.walFile ∈ s.received
  level0 : (s.tree.nodes 0).map Tree.pairs =
    (s.rotated.filter (·.walFile ∈ s.received)).map (·.memTable.all)

/-- The condition on a delivery: the logs are numbered from zero on in the order of rotation, and as
many memtables were received as have smaller numbers. -/
def inOrder (s : Flushes) : Delivery → Bool
  | .put _ _ => true
  | .receive walFile => walFile = s.received.length

/-- The condition on a delivery: a table with a separable first key can be made of the memtable that
is received. -/
def separable (conf : Config) (s : Flushes) : Delivery → Bool
  | .put _ _ => true
  | .receive walFile => (s.tree.memCompactC.find? (·.walFile = walFile)).all fun item =>
      Tree.writable conf item.memTable.all

/-! ## Memtables in turn -/

/-- The memtables were received in the order of rotation, and the others wait. -/
structure InTurn (s : Flushes) : Prop where
  memCompactC_eq : s.tree.memCompactC = s.tree.rOnlyMemTable
  walFiles : s.rotated.map (·.walFile) = range s.tree.memTableIndex
  waiting : s.tree.rOnlyMemTable = s.rotated.drop s.received.length
  received_eq : s.received = range s.received.length
  received_le : s.received.length ≤ s.rotated.length

lemma inTurn_new : InTurn {} :=
  ⟨rfl, rfl, rfl, rfl, le_rfl⟩

section

variable (h : s.InTurn)
include h

lemma InTurn.rotated_eq (hr : s.tree.rOnlyMemTable = item :: rest) :
    s.rotated = s.rotated.take s.received.length ++ item :: rest := by
  rw [← hr, h.waiting, take_append_drop]

/-- The oldest memtable that waits is the next one. -/
lemma InTurn.walFile_eq (hr : s.tree.rOnlyMemTable = item :: rest) :
    item.walFile = s.received.length := by
  have hsplit := congrArg (map (·.walFile)) (h.rotated_eq hr)
  rw [h.walFiles, map_append] at hsplit
  have hlen : ((s.rotated.take s.received.length).map (·.walFile)).length = s.received.length := by
    rw [length_map, length_take_of_le h.received_le]
  have hget := congrArg (·[s.received.length]?) hsplit
  simp only [getElem?_append_right hlen.le, hlen, Nat.sub_self] at hget
  obtain ⟨hlt, hval⟩ := List.getElem?_eq_some_iff.1 hget
  rw [getElem_range] at hval
  exact hval.symm

/-- What was received are the memtables up to the oldest one that waits. -/
lemma InTurn.map_take : (s.rotated.take s.received.length).map (·.walFile) = s.received := by
  have hlen : s.received.length ≤ s.tree.memTableIndex := by
    have hrotated := congrArg length h.walFiles
    rw [length_map, length_range] at hrotated
    exact hrotated ▸ h.received_le
  rw [List.map_take, h.walFiles, List.take_range, min_eq_left hlen]
  exact h.received_eq.symm

lemma InTurn.nodup : (s.rotated.map (·.walFile)).Nodup := by
  rw [h.walFiles]
  exact nodup_range

/-- A memtable that waits was not received. -/
lemma InTurn.not_mem_received (hitem : item ∈ s.tree.rOnlyMemTable) :
    item.walFile ∉ s.received := by
  intro hmem
  rw [← h.map_take, List.map_take] at hmem
  rw [h.waiting] at hitem
  have hdrop := List.mem_map_of_mem (f := (·.walFile)) hitem
  rw [List.map_drop] at hdrop
  exact List.disjoint_take_drop h.nodup le_rfl hmem hdrop

lemma InTurn.filter_received :
    s.rotated.filter (·.walFile ∈ s.received) = s.rotated.take s.received.length := by
  conv_lhs => rw [← take_append_drop s.received.length s.rotated]
  have htake : (s.rotated.take s.received.length).filter (·.walFile ∈ s.received) =
      s.rotated.take s.received.length := by
    refine filter_eq_self.2 fun item hitem => decide_eq_true ?_
    rw [← h.map_take]
    exact mem_map_of_mem hitem
  have hdrop : (s.rotated.drop s.received.length).filter (·.walFile ∈ s.received) = [] := by
    refine filter_eq_nil_iff.2 fun item hitem hmem => ?_
    rw [← h.waiting] at hitem
    exact h.not_mem_received hitem (of_decide_eq_true hmem)
  rw [filter_append, htake, hdrop, append_nil]

/-- A rotated memtable waits or was received. -/
lemma InTurn.kept (hitem : item ∈ s.rotated) :
    item ∈ s.tree.rOnlyMemTable ∨ item.walFile ∈ s.received := by
  rw [← take_append_drop s.received.length s.rotated] at hitem
  rcases mem_append.1 hitem with hitem | hitem
  · refine .inr ?_
    rw [← h.map_take]
    exact mem_map_of_mem hitem
  · exact .inl (h.waiting ▸ hitem)

end

/-! ## One step -/

/-- A call of `Put` writes the pair, and rotates or not. -/
lemma step_put (conf : Config) (s : Flushes) (k v : Bytes) :
    s.step conf (.put k v) = some { s with tree := s.tree.logged k v } ∨
    s.step conf (.put k v) = some { s with
      tree := (s.tree.logged k v).refreshMemTableLocked
      rotated := s.rotated ++ [(s.tree.logged k v).oldItem] } := by
  rw [step]
  rcases Tree.put_eq conf s.tree k v with heq | heq
  · refine .inl ?_
    rw [heq]
    have hnone : (s.tree.logged k v).rOnlyMemTable.drop s.tree.rOnlyMemTable.length = [] :=
      drop_length
    simp only [hnone, append_nil]
  · refine .inr ?_
    rw [heq]
    have hone : (s.tree.logged k v).refreshMemTableLocked.rOnlyMemTable.drop
        s.tree.rOnlyMemTable.length = [(s.tree.logged k v).oldItem] :=
      drop_left
    simp only [hone]

/-- The next memtable is received. -/
lemma InTurn.step_receive (h : s.InTurn) (hr : s.tree.rOnlyMemTable = item :: rest) :
    s.step conf (.receive item.walFile) = some { s with
      tree := s.tree.flushed conf item rest
      received := s.received ++ [item.walFile] } := by
  rw [step, Tree.step_compactMemTable h.memCompactC_eq hr, map_some]

lemma InTurn.put (h : s.InTurn) {k v : Bytes} (hstep : s.step conf (.put k v) = some s') :
    s'.InTurn := by
  rcases step_put conf s k v with heq | heq
  · rw [heq] at hstep
    cases hstep
    exact ⟨h.memCompactC_eq, h.walFiles, h.waiting, h.received_eq, h.received_le⟩
  · rw [heq] at hstep
    cases hstep
    refine ⟨congrArg (· ++ _) h.memCompactC_eq, ?_, ?_, h.received_eq, ?_⟩
    · rw [map_append, h.walFiles]
      exact range_succ.symm
    · rw [drop_append_of_le_length h.received_le, ← h.waiting]
      rfl
    · rw [length_append]
      exact h.received_le.trans (Nat.le_add_right _ _)

lemma InTurn.receive (h : s.InTurn) (hr : s.tree.rOnlyMemTable = item :: rest) :
    InTurn { s with
      tree := s.tree.flushed conf item rest
      received := s.received ++ [item.walFile] } := by
  have hsplit := h.rotated_eq hr
  have hwal := h.walFile_eq hr
  have hlen : s.rotated.length = s.received.length + (rest.length + 1) := by
    have hlen := congrArg length hsplit
    rwa [length_append, length_take_of_le h.received_le] at hlen
  have hdrop : s.rotated.drop (s.received.length + 1) = rest := by
    rw [← tail_drop, ← h.waiting, hr, tail_cons]
  refine ⟨?_, ?_, ?_, ?_, ?_⟩
  · rw [Tree.flushed_only]
  · rw [Tree.flushed_only]
    exact h.walFiles
  · rw [length_append]
    exact hdrop.symm
  · rw [length_append, length_singleton, range_succ, ← h.received_eq, hwal]
  · rw [length_append]
    exact hlen ▸ Nat.add_le_add_left (Nat.le_add_left 1 rest.length) s.received.length

/-- The oldest memtable is forgotten, whichever is received. -/
lemma suffix_of_receive (hwait : s.tree.memCompactC = s.tree.rOnlyMemTable)
    (hr : s.tree.rOnlyMemTable = item :: rest) {walFile : ℕ}
    (hstep : s.step conf (.receive walFile) = some s') :
    s'.tree.rOnlyMemTable <:+ rest ∧ s'.rotated = s.rotated ∧
      s'.received = s.received ++ [walFile] := by
  rw [step, Tree.step] at hstep
  cases hfind : s.tree.memCompactC.find? (·.walFile = walFile) with
  | none =>
    rw [hfind] at hstep
    cases hstep
  | some found =>
    rw [hfind] at hstep
    cases hstep
    refine ⟨?_, rfl, rfl⟩
    have hmem : found ∈ item :: rest := hr ▸ hwait ▸ mem_of_find?_eq_some hfind
    cases hidx : s.tree.rOnlyMemTable.findIdx? (·.walFile = found.walFile) with
    | none =>
      rw [hr] at hidx
      have hno := findIdx?_eq_none_iff.1 hidx found hmem
      exact absurd rfl (of_decide_eq_false hno)
    | some i =>
      -- the memtable and all before it are forgotten
      unfold Tree.compactMemTable
      dsimp only
      rw [Tree.rOnlyMemTable_flushMemTable, hidx, hr]
      exact drop_suffix i rest

/-- **A memtable that is received out of turn is seen**: the oldest one leaves the read-only
memtables, and was not received. -/
lemma InTurn.inOrder_of_right (h : s.InTurn) {d : Delivery} (hstep : s.step conf d = some s')
    (hright : s'.Right conf) : s.inOrder d = true ∧ s'.InTurn := by
  cases d with
  | put k v => exact ⟨rfl, h.put hstep⟩
  | receive walFile =>
    cases hr : s.tree.rOnlyMemTable with
    | nil =>
      rw [step, Tree.step, h.memCompactC_eq, hr] at hstep
      cases hstep
    | cons item rest =>
      have hturn : item.walFile = walFile := by
        obtain ⟨hsuffix, hrotated, hreceived⟩ := suffix_of_receive h.memCompactC_eq hr hstep
        have hsplit := h.rotated_eq hr
        have hmem : item ∈ s'.rotated := by
          rw [hrotated, hsplit]
          exact mem_append_right _ mem_cons_self
        rcases hright.kept item hmem with hin | hin
        · have hnodup := h.nodup
          rw [hsplit, map_append] at hnodup
          have hnot := (nodup_cons.1 hnodup.of_append_right).1
          exact absurd (mem_map_of_mem (hsuffix.subset hin)) hnot
        · rw [hreceived] at hin
          rcases mem_append.1 hin with hin | hin
          · exact absurd hin (h.not_mem_received (hr ▸ mem_cons_self))
          · exact mem_singleton.1 hin
      subst hturn
      rw [h.step_receive hr, some_inj] at hstep
      subst hstep
      exact ⟨decide_eq_true (h.walFile_eq hr), h.receive hr⟩

/-! ## Deliveries in the order of rotation -/

/-- The state after deliveries in the order of rotation. -/
structure Flushed (conf : Config) (s : Flushes) : Prop where
  inTurn : s.InTurn
  sound : Tree.Sound conf s.tree
  answer_eq : ∀ key, s.tree.answer conf key = s.newestValue key
  level0 : (s.tree.nodes 0).map Tree.pairs =
    (s.rotated.take s.received.length).map (·.memTable.all)

lemma Flushed.right (h : s.Flushed conf) : s.Right conf where
  get_eq key := by rw [h.sound.readable.get, h.answer_eq]
  kept _ hitem := h.inTurn.kept hitem
  level0 := by rw [h.level0, h.inTurn.filter_received]

lemma flushed_new (conf : Config) : Flushed conf {} where
  inTurn := inTurn_new
  sound := Tree.sound_new conf
  answer_eq key := by
    have hlevels : (Tree.new : Tree).levelsAnswer key (range conf.maxLevel) = none :=
      findSome?_eq_none_iff.2 fun _ _ => rfl
    rw [Tree.answer, hlevels]
    rfl
  level0 := rfl

lemma Flushed.put (h : s.Flushed conf) {k v : Bytes} (hstep : s.step conf (.put k v) = some s') :
    s'.Flushed conf := by
  have hturn := h.inTurn.put hstep
  have hlogged : ∀ key, (s.tree.logged k v).answer conf key =
      ((s.tree.logged k v).memTable.get key).or
        (newest (s.rotated.map (·.memTable.get key))) := by
    intro key
    have hput : (s.tree.logged k v).memTable.get key =
        if key = k then some v else s.tree.memTable.get key := Tree.get_put s.tree.memTable k v key
    rw [Tree.answer_logged, hput, h.answer_eq]
    split_ifs
    · rfl
    · rfl
  rcases step_put conf s k v with heq | heq
  · rw [heq] at hstep
    cases hstep
    exact ⟨hturn, h.sound.logged k v, hlogged, h.level0⟩
  · rw [heq] at hstep
    cases hstep
    refine ⟨hturn, (h.sound.logged k v).refreshMemTableLocked
      (SortedAssoc.put_ne_nil k v s.tree.memTable.entries), fun key => ?_, ?_⟩
    · rw [Tree.answer_refreshMemTableLocked, hlogged, newestValue, map_append, newest_append]
      rfl
    · rw [take_append_of_le_length h.inTurn.received_le]
      exact h.level0

lemma Flushed.receive (h : s.Flushed conf) (hr : s.tree.rOnlyMemTable = item :: rest)
    (hok : Tree.writable conf item.memTable.all = true) :
    Flushed conf { s with
      tree := s.tree.flushed conf item rest
      received := s.received ++ [item.walFile] } := by
  obtain ⟨n, _, hn, -, hnodes⟩ := h.sound.exists_flushed hr hok
  refine ⟨h.inTurn.receive hr, h.sound.flushed hr hok, fun key => ?_, ?_⟩
  · rw [h.sound.answer_flushed hr hok, h.answer_eq, newestValue, newestValue, Tree.flushed_only]
  · have hnext : s.rotated.take (s.received.length + 1) =
        s.rotated.take s.received.length ++ [item] := by
      have hdrop := congrArg (take 1) (h.inTurn.waiting.symm.trans hr)
      rw [take_add, hdrop]
      rfl
    rw [hnodes, Function.update_self, map_append, h.level0, length_append,
      length_singleton, hnext, map_append, map_singleton, hn.pairs_eq]
    rfl

/-- **A step in the order of rotation** keeps the invariant. -/
lemma Flushed.step (h : s.Flushed conf) {d : Delivery} (horder : s.inOrder d = true)
    (hsep : s.separable conf d = true) (hstep : s.step conf d = some s') : s'.Flushed conf := by
  cases d with
  | put k v => exact h.put hstep
  | receive walFile =>
    cases hr : s.tree.rOnlyMemTable with
    | nil =>
      rw [Flushes.step, Tree.step, h.inTurn.memCompactC_eq, hr] at hstep
      cases hstep
    | cons item rest =>
      have hwal : item.walFile = walFile := by
        rw [h.inTurn.walFile_eq hr]
        exact (of_decide_eq_true horder).symm
      subst hwal
      have hok : Tree.writable conf item.memTable.all = true := by
        rw [separable, h.inTurn.memCompactC_eq, hr] at hsep
        simpa using hsep
      rw [h.inTurn.step_receive hr, some_inj] at hstep
      subst hstep
      exact h.receive hr hok

/-- **The order of the deliveries.** For every run of `Put` calls and deliveries from an empty
tree: if the memtables are read, kept and written in the order of their rotation after every part of
the run, then each delivery was that of the oldest memtable that waited. If each delivery was that,
and a table with a separable first key could be made of the memtable, then they are. -/
theorem right_of_inOrder (conf : Config) {ds : List Delivery} {s : Flushes}
    (hrun : Runs.run (step conf) {} ds = some s) :
    ((∀ n s', Runs.run (step conf) {} (ds.take n) = some s' → s'.Right conf) →
      Runs.along (step conf) inOrder {} ds = true) ∧
    (Runs.along (step conf) (fun s d => s.inOrder d && s.separable conf d) {} ds = true →
      s.Right conf) := by
  constructor
  · exact Runs.along_of_prefixes (I := InTurn) (fun s d s' h hstep hright =>
      h.inOrder_of_right hstep hright) inTurn_new hrun
  · intro hok
    have hflushed : s.Flushed conf := Runs.along_invariant (fun s d s' h hok hstep => by
      rw [Bool.and_eq_true] at hok
      exact h.step hok.1 hok.2 hstep) (flushed_new conf) hok hrun
    exact hflushed.right

/-- Two memtables are rotated and received in this order. -/
theorem right_of_inOrder_two : ∃ (conf : Config) (s : Flushes),
    Runs.run (step conf) {} [.put [97] [49], .put [98] [50], .receive 0, .receive 1] = some s ∧
    s.rotated.length = 2 ∧ s.Right conf := by
  let conf := newConfig 7 1 1 0 none
  let ds : List Delivery := [.put [97] [49], .put [98] [50], .receive 0, .receive 1]
  obtain ⟨s, hrun, hrotated⟩ : ∃ s, Runs.run (step conf) {} ds = some s ∧ s.rotated.length = 2 := by
    decide +kernel
  have hok : Runs.along (step conf) (fun s d => s.inOrder d && s.separable conf d) {} ds =
      true := by decide +kernel
  exact ⟨conf, s, hrun, hrotated, (right_of_inOrder conf hrun).2 hok⟩

/-- The second of two memtables is received first: the first one is forgotten, and its key is not
found. -/
theorem key_lost_out_of_turn : ∃ (conf : Config) (s : Flushes),
    Runs.run (step conf) {} [.put [97] [49], .put [98] [50], .receive 1] = some s ∧
    s.newestValue [97] = some [49] ∧ s.tree.get conf [97] = .ok none := by
  exact ⟨newConfig 7 1 1 0 none, by decide +kernel⟩

end Flushes

end Yukino.Lsm
