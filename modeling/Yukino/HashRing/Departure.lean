import Mathlib.Data.Finset.Card
import Yukino.HashRing.Owners

set_option autoImplicit false

/-!
# A replica that goes

`RemoveNode` takes the virtual nodes of a node off the ring one by one, and before each of them it
moves the data keys that belong to its score.

## Main definitions

* `ConsistentHash.Draining` — while `n` leaves, a record is with the heir, or with
  `n` itself where `n` still owns the score.
* `ConsistentHash.Takes` — the node that takes the data at a score.

## Main results

* `ConsistentHash.migrateOut_spec` — what `migrateOut` moves, and where to.
* `ConsistentHash.Draining.removeReplica` — one replica goes.
* `ConsistentHash.uncut_getValidNextNode` — the walk to the next node ends.

## Design

`RemoveNode` does not move a key to the owner on the ring without the replica it takes off, but to
the first node behind that is not the leaving one. In between the ring and the records disagree:
a score may be owned by another replica of the leaving node while the key is already with its
heir. `Draining` allows for that, and says the same as `Settled` once no replica is left.
-/

namespace Yukino.HashRing

open MachineInt SkiplistHashRing RingWalk Outcome List

namespace ConsistentHash

variable {c : ConsistentHash} {s s' : SkiplistHashRing} {P : Set (String × ℕ)} {n m : String}
  {i : ℕ} {d v : ℤ}

/-- While `n` leaves: a record is with the heir, or with `n` where `n` owns the key. -/
def Draining (c : ConsistentHash) (s : SkiplistHashRing) (n : String) : Prop :=
  ∀ m k, k ∈ s.dataKeys m →
    (m = n ∧ s.owner (c.encryptor.encrypt k) = some n) ∨ s.Heir n (c.encryptor.encrypt k) m

/-! ## A replica that goes -/

variable {toNode : String}

/-- **The walk to the next node.** The node it finds is the heir of the scores behind, or the
leaving node itself where that stands twice at the next score that it shares. -/
lemma getValidNextNode_spec (h : c.OnRing s P) {rounds : ℕ} {score : ℤ} {ranged : Finset ℤ}
    (hscore : OnCircle maxInt32 score)
    (hok : getValidNextNode n rounds score ranged s = .ok toNode s') :
    s' = s ∧ (toNode ≠ "" →
      (toNode = n ∧ (s.nodesAt (s.ceiling (next maxInt32 score))).head? = some n) ∨
        s.Heir n (next maxInt32 score) toNode) := by
  induction rounds generalizing score ranged with
  | zero => cases hok
  | succ rounds ih =>
    unfold getValidNextNode at hok
    rw [get_bind, incrScore_eq hscore] at hok
    split_ifs at hok with hstop
    · cases hok
      exact ⟨rfl, fun hne => absurd rfl hne⟩
    · have hnonempty : s.Scores.Nonempty := by
        by_contra hempty
        refine hstop ?_
        simp [ceiling_of_empty fun a ha => hempty ⟨a, ha⟩]
      have hfirst := h.first hnonempty (next maxInt32 score)
      have howner := h.owner_eq hfirst
      rw [node_bind _ hfirst.mem] at hok
      cases hids : s.ids (s.ceiling (next maxInt32 score)) with
      | nil => exact absurd hids (h.linked.ids_ne_nil hfirst.mem)
      | cons first others =>
        have hnodes : s.nodesAt (s.ceiling (next maxInt32 score)) =
            getNodeID first :: others.map getNodeID := by simp [nodesAt, hids]
        simp only [hids] at hok
        split_ifs at hok with hn
        · cases hok
          refine ⟨rfl, fun _ => .inr (h.heir_of_owner ?_ hn)⟩
          rw [howner, hnodes, head?_cons]
        · rw [not_not] at hn
          cases others with
          | cons other others =>
            cases hok
            refine ⟨rfl, fun _ => ?_⟩
            by_cases hother : getNodeID other = n
            · exact .inl ⟨hother, by rw [hnodes, hn, head?_cons]⟩
            · have hfo : s.firstOther n (s.ceiling (next maxInt32 score)) =
                  some (getNodeID other) := by simp [firstOther, hnodes, hn, hother]
              exact .inr ⟨_, hfirst.subset others_subset (by simp [Others, hfo]), hfo⟩
          | nil =>
            obtain ⟨rfl, hnext⟩ := ih (h.onCircle _ hfirst.mem) hok
            refine ⟨rfl, fun hne => (hnext hne).imp (fun hto => ⟨hto.1, ?_⟩) ?_⟩
            · rw [hnodes, hn, head?_cons]
            · -- only the leaving node is at this score, so the walk goes past it
              rintro ⟨w, hw, hfo⟩
              refine ⟨w, First.past h.onCircle hscore.next hfirst others_subset ?_ hw, hfo⟩
              simp [Others, firstOther, hnodes, hn]

/-- The node `toNode` that takes the data of `n` at the score `v`. -/
def Takes (s : SkiplistHashRing) (v : ℤ) (n toNode : String) : Prop :=
  (∃ rest, s.nodesAt v = n :: toNode :: rest) ∨
    (s.nodesAt v = [n] ∧ s.ceiling (next maxInt32 v) ≠ v ∧
      ((toNode = n ∧ (s.nodesAt (s.ceiling (next maxInt32 v))).head? = some n) ∨
        s.Heir n (next maxInt32 v) toNode))

/-- A node that takes the data of `n` is the heir of `n` there. -/
lemma Takes.heir (ht : Takes s v n toNode) (h : c.OnRing s P)
    (hd : OnCircle maxInt32 d) (hfirst : First maxInt32 s.Scores d v) (hne : toNode ≠ n) :
    s.Heir n d toNode := by
  rcases ht with ⟨rest, hnodes⟩ | ⟨hnodes, -, ⟨heq, -⟩ | ⟨w, hw, hfo⟩⟩
  · have hfo : s.firstOther n v = some toNode := by simp [firstOther, hnodes, hne]
    exact ⟨v, hfirst.subset others_subset (by simp [Others, hfo]), hfo⟩
  · exact absurd heq hne
  · refine ⟨w, First.past h.onCircle hd hfirst others_subset ?_ hw, hfo⟩
    simp [Others, firstOther, hnodes]

lemma Takes.mem (ht : Takes s v n toNode) (h : c.OnRing s P) :
    toNode = n ∨ ∃ i, (toNode, i) ∈ P := by
  rcases ht with ⟨rest, hnodes⟩ | ⟨-, -, ⟨heq, -⟩ | ⟨w, -, hfo⟩⟩
  · exact .inr (h.mem_of_nodesAt (v := v) (by simp [hnodes]))
  · exact .inl heq
  · exact .inr (h.mem_of_nodesAt (firstOther_mem hfo))

lemma heirAt_spec (h : c.OnRing s P) {first : String} {others : List String}
    (hv : v ∈ s.Scores) (hids : s.ids v = first :: others) (hn : getNodeID first = n)
    (halone : others = [] → s.floor (prev maxInt32 v) ≠ v)
    (hok : heirAt v n others s = .ok toNode s') : s' = s ∧ Takes s v n toNode := by
  have hvm := h.onCircle v hv
  cases others with
  | cons other others =>
    cases hok
    exact ⟨rfl, .inl ⟨others.map getNodeID, by simp [nodesAt, hids, hn]⟩⟩
  | nil =>
    simp only [heirAt] at hok
    rw [get_bind] at hok
    obtain ⟨to', s₁, hwalk, hrest⟩ := run_bind_eq_ok.1 hok
    obtain ⟨hs₁, hspec⟩ := getValidNextNode_spec h hvm hwalk
    rw [hs₁] at hrest
    split_ifs at hrest with hempty
    · cases hrest
    · cases hrest
      have hbehind := behind_floor h.onCircle hv
      refine ⟨rfl, .inr ⟨by simp [nodesAt, hids, hn], ?_, hspec hempty⟩⟩
      exact (h.first ⟨v, hv⟩ _).ne_of_mem h.onCircle hvm hbehind.1 (halone rfl)

/-- The ring `s'` is `s` with the data keys of `n` at the score `v` moved to `toNode`. -/
structure Moved (c : ConsistentHash) (s s' : SkiplistHashRing) (v : ℤ) (n toNode : String) :
    Prop where
  virtualNodes : s'.virtualNodes = s.virtualNodes
  nodeToReplicas : s'.nodeToReplicas = s.nodeToReplicas
  dataKeys : ∀ m k, k ∈ s'.dataKeys m ↔
    (m = toNode ∧ k ∈ s.dataKeys n ∧ First maxInt32 s.Scores (c.encryptor.encrypt k) v) ∨
      (k ∈ s.dataKeys m ∧ ¬(m = n ∧ First maxInt32 s.Scores (c.encryptor.encrypt k) v))

/-- Moving keys loses no record. -/
lemma Moved.recorded {k : String} (h : c.Moved s s' v n toNode) (hk : s.Recorded k) :
    s'.Recorded k := by
  obtain ⟨m, hm⟩ := hk
  by_cases hmoves : m = n ∧ First maxInt32 s.Scores (c.encryptor.encrypt k) v
  · exact ⟨toNode, (h.dataKeys _ k).2 (.inl ⟨rfl, hmoves.1 ▸ hm, hmoves.2⟩)⟩
  · exact ⟨m, (h.dataKeys m k).2 (.inr ⟨hm, hmoves⟩)⟩

lemma moved_move {ds : Finset String} (hds : ∀ k, k ∈ ds ↔
    k ∈ s.dataKeys n ∧ First maxInt32 s.Scores (c.encryptor.encrypt k) v) (toNode : String) :
    c.Moved s ((s.deleteNodeToDataKeys n ds).addNodeToDataKeys toNode ds) v n toNode where
  virtualNodes := by simp
  nodeToReplicas := by simp
  dataKeys := by
    intro m k
    rw [mem_dataKeys_move, hds]
    by_cases hm : m = n
    · subst hm
      tauto
    · simp [hm]

/-- Nothing moves from a node to itself, or if no key belongs to the score. -/
lemma moved_refl (h : n = toNode ∨ ∀ k ∈ s.dataKeys n,
    ¬First maxInt32 s.Scores (c.encryptor.encrypt k) v) : c.Moved s s v n toNode where
  virtualNodes := rfl
  nodeToReplicas := rfl
  dataKeys := by
    intro m k
    rcases h with rfl | hnone
    · by_cases hm : m = n
      · subst hm
        tauto
      · simp [hm]
    · by_cases hm : m = n
      · subst hm
        tauto
      · tauto

/-- The keys of the leaving node that `migrateOut` picks are those that belong to the score. -/
lemma picked_iff (h : c.OnRing s P) (hv : v ∈ s.Scores) (k : String) :
    (s.floor (prev maxInt32 v) = v ∨
      migratesOut (s.floor (prev maxInt32 v)) v (c.encryptor.encrypt k) = true) ↔
        First maxInt32 s.Scores (c.encryptor.encrypt k) v := by
  have hbehind := behind_floor h.onCircle hv
  by_cases halone : s.floor (prev maxInt32 v) = v
  · refine iff_of_true (.inl halone) ⟨hv, fun a ha => ?_⟩
    rw [hbehind.2.1 halone a ha]
  · rw [or_iff_right halone, migratesOut_iff (h.onCircle _ hbehind.1) (h.onCircle v hv)
      (c.encryptor.onCircle k),
      first_iff_of_behind h.onCircle (c.encryptor.onCircle k) hv hbehind halone]

/-- What `migrateOut` does: nothing where `n` owns nothing, and otherwise it moves the keys of `n`
that belong to the score. -/
lemma migrateOut_spec (h : c.OnRing s P) (hmig : c.migrator = true) (hv : v ∈ s.Scores)
    (hname : ∀ m i, (m, i) ∈ P → m ≠ n → m ≠ "") {migration : Migration}
    (hok : c.migrateOut v n s = .ok migration s') :
    (s' = s ∧ ((s.nodesAt v).head? ≠ some n ∨ s.dataKeys n = ∅)) ∨
      ((s.nodesAt v).head? = some n ∧ ∃ toNode, Takes s v n toNode ∧ c.Moved s s' v n toNode) := by
  have hvm := h.onCircle v hv
  have hlast : s.floor (prev maxInt32 v) ≠ -1 := by
    have := (h.onCircle _ (behind_floor h.onCircle hv).1).1
    omega
  unfold migrateOut at hok
  simp only [hmig, Bool.not_true, Bool.false_eq_true, if_false] at hok
  rw [node_bind _ hv] at hok
  cases hids : s.ids v with
  | nil => exact absurd hids (h.linked.ids_ne_nil hv)
  | cons first others =>
    have hhead : (s.nodesAt v).head? = some (getNodeID first) := by simp [nodesAt, hids]
    simp only [hids] at hok
    split_ifs at hok with hn
    · cases hok
      exact .inl ⟨rfl, .inl (by simpa [hhead] using hn)⟩
    rw [not_not] at hn
    rw [get_bind] at hok
    split_ifs at hok with hnone
    · cases hok
      exact .inl ⟨rfl, .inr hnone⟩
    rw [get_bind, decreaseScore_eq hvm] at hok
    split_ifs at hok with hno
    · cases hok
    simp only [hlast, decide_false, Bool.false_or, Bool.and_eq_true, decide_eq_true_eq,
      List.isEmpty_iff, not_and] at hno hok
    obtain ⟨toNode, s₁, hheir, hrest⟩ := run_bind_eq_ok.1 hok
    obtain ⟨hs₁, htakes⟩ := heirAt_spec h hv hids hn (fun ho hl => hno hl ho) hheir
    rw [hs₁] at hrest
    refine .inr ⟨by rw [hhead, hn], toNode, htakes, ?_⟩
    have hds : ∀ k, k ∈ (s.dataKeys n).filter (fun dataKey =>
        (decide (s.floor (prev maxInt32 v) = v) ||
          migratesOut (s.floor (prev maxInt32 v)) v (c.encryptor.encrypt dataKey)) = true) ↔
            k ∈ s.dataKeys n ∧ First maxInt32 s.Scores (c.encryptor.encrypt k) v := by
      intro k
      rw [Finset.mem_filter, Bool.or_eq_true, decide_eq_true_eq, picked_iff h hv]
    split_ifs at hrest with hstop
    · cases hrest
      rw [Bool.or_eq_true, decide_eq_true_eq, decide_eq_true_eq] at hstop
      rcases hstop with hempty | hempty
      · -- no node but the leaving one can have the empty id
        refine moved_refl (.inl ?_)
        rcases htakes.mem h with heq | ⟨i, hi⟩
        · exact heq.symm
        · by_contra hne
          exact hname toNode i hi (Ne.symm hne) hempty
      · refine moved_refl (.inr fun k hk hfirst => ?_)
        have hmem := (hds k).2 ⟨hk, hfirst⟩
        rw [hempty] at hmem
        exact Finset.notMem_empty k hmem
    · obtain ⟨_, s₂, hmove, hpure⟩ := run_bind_eq_ok.1 hrest
      cases hmove
      cases hpure
      exact moved_move hds toNode

section Departure

variable {key : String}

/-- Erasing an element that is not looked for. -/
lemma find?_map_erase {α β : Type} [DecidableEq α] {f : α → β} {p : β → Bool} {a : α}
    (h : p (f a) = false) (l : List α) : ((l.erase a).map f).find? p = (l.map f).find? p := by
  induction l with
  | nil => rfl
  | cons b l ih =>
    by_cases hb : b = a
    · simp [hb, h]
    · simp [erase_cons_tail (show ¬(b == a) = true by simpa using hb), find?_cons, ih]

/-- Taking a virtual node of `n` off the ring leaves the first other node of every score. -/
lemma firstOther_unlink (hmem : key ∈ s.ids v) (hn : getNodeID key = n) (a : ℤ) :
    (s.unlink v (s.ids v) key).firstOther n a = s.firstOther n a := by
  unfold firstOther nodesAt
  rw [ids_unlink hmem]
  split_ifs with ha
  · rw [ha]
    exact find?_map_erase (by simp [hn]) _
  · rfl

variable {P' : Set (String × ℕ)}

variable (h : c.OnRing s P) (h' : c.OnRing (s.unlink v (s.ids v) key) P') (hmem : key ∈ s.ids v)
include h h' hmem

lemma unlink_scores_subset : (s.unlink v (s.ids v) key).Scores ⊆ s.Scores := by
  intro a ha
  rw [h'.linked.mem_scores_iff, ids_unlink hmem] at ha
  rw [h.linked.mem_scores_iff]
  split_ifs at ha with hav
  · rw [hav]
    exact ne_nil_of_mem hmem
  · exact ha

/-- A score that the virtual node does not stand at keeps what it owns. -/
lemma owner_unlink_of_ne {w : ℤ}
    (hw : First maxInt32 s.Scores d w) (hne : w ≠ v) :
    (s.unlink v (s.ids v) key).owner d = s.owner d := by
  have hids := ids_unlink hmem
  have hsub := unlink_scores_subset h h' hmem
  have hw' : w ∈ (s.unlink v (s.ids v) key).Scores := by
    rw [h'.linked.mem_scores_iff, hids, if_neg hne]
    exact h.linked.ids_ne_nil hw.mem
  rw [h.owner_eq hw, h'.owner_eq (hw.subset hsub hw')]
  unfold nodesAt
  rw [hids, if_neg hne]

omit h in
lemma mem_scores_unlink
    (hrest : (s.ids v).erase key ≠ []) : v ∈ (s.unlink v (s.ids v) key).Scores := by
  rw [h'.linked.mem_scores_iff, ids_unlink hmem, if_pos rfl]
  exact hrest

/-- If `n` is not the owner at its score, taking it off there changes no owner. -/
lemma owner_unlink_of_head
    (hn : getNodeID key = n) (hhead : (s.nodesAt v).head? ≠ some n) (d : ℤ) :
    (s.unlink v (s.ids v) key).owner d = s.owner d := by
  have hfirst := h.first ⟨v, mem_scores_of_ids hmem⟩ d
  by_cases hw : s.ceiling d = v
  · obtain ⟨b, rest, hids⟩ := exists_cons_of_ne_nil (ne_nil_of_mem hmem)
    have hb : b ≠ key := by
      rintro rfl
      simp [nodesAt, hids, hn] at hhead
    have herase : (s.ids v).erase key = b :: rest.erase key := by
      rw [hids, erase_cons_tail (by simpa using hb)]
    rw [hw] at hfirst
    have hfirst' := hfirst.subset (unlink_scores_subset h h' hmem)
      (mem_scores_unlink h' hmem (by simp [herase]))
    rw [h.owner_eq hfirst, h'.owner_eq hfirst']
    unfold nodesAt
    rw [ids_unlink hmem, if_pos rfl, herase, hids]
    rfl
  · exact owner_unlink_of_ne h h' hmem hfirst hw

/-- Where the leaving node takes its own data, it stays the owner. -/
lemma owner_unlink_of_takes
    (ht : Takes s v n n) (hd : OnCircle maxInt32 d) (hfirst : First maxInt32 s.Scores d v) :
    (s.unlink v (s.ids v) key).owner d = some n := by
  have hids := ids_unlink hmem
  have hsub := unlink_scores_subset h h' hmem
  rcases ht with ⟨rest, hnodes⟩ | ⟨hnodes, hne, ⟨-, hhead⟩ | hheir⟩
  · -- another virtual node of `n` is at the score
    obtain ⟨a, b, l, hl⟩ : ∃ a b l, s.ids v = a :: b :: l := by
      match hl : s.ids v with
      | [] | [a] => simp [nodesAt, hl] at hnodes
      | a :: b :: l => exact ⟨a, b, l, rfl⟩
    obtain ⟨ha, hb, -⟩ : getNodeID a = n ∧ getNodeID b = n ∧ l.map getNodeID = rest := by
      simpa [nodesAt, hl] using hnodes
    by_cases hak : a = key
    · have herase : (s.ids v).erase key = b :: l := by rw [hl, hak, erase_cons_head]
      rw [h'.owner_eq (hfirst.subset hsub (mem_scores_unlink h' hmem (by simp [herase])))]
      simp [nodesAt, hids, herase, hb]
    · have herase : (s.ids v).erase key = a :: (b :: l).erase key := by
        rw [hl, erase_cons_tail (by simpa using hak)]
      rw [h'.owner_eq (hfirst.subset hsub (mem_scores_unlink h' hmem (by simp [herase])))]
      simp [nodesAt, hids, herase, ha]
  · -- `n` is alone at the score and owns the next one
    have hkey : (s.ids v).erase key = [] := by
      have hlen : (s.ids v).length = 1 := by simpa [nodesAt] using congrArg length hnodes
      rw [← length_eq_zero_iff, length_erase_of_mem hmem, hlen]
    have hnext := h.first ⟨v, hfirst.mem⟩ (next maxInt32 v)
    have hmem' : s.ceiling (next maxInt32 v) ∈ (s.unlink v (s.ids v) key).Scores := by
      rw [h'.linked.mem_scores_iff, hids, if_neg hne]
      exact h.linked.ids_ne_nil hnext.mem
    have hgone : v ∉ (s.unlink v (s.ids v) key).Scores := by
      rw [h'.linked.mem_scores_iff, hids, if_pos rfl, hkey]
      exact fun hne => hne rfl
    rw [h'.owner_eq (First.past h.onCircle hd hfirst hsub hgone (hnext.subset hsub hmem')), ← hhead]
    simp [nodesAt, hids, hne]
  · exact absurd rfl hheir.ne

end Departure

/-- **One replica goes.** A record is with the heir, or with `n` where `n` owns the key, before
and after, and no key loses its record. -/
theorem Draining.removeReplica (hD : c.Draining s n) (hmig : c.migrator = true)
    (h : c.OnRing s P) (hP : (n, i) ∈ P)
    (hname : ∀ m j, (m, j) ∈ P → m ≠ n → m ≠ "" ∧ m ≠ getRawNodeKey n i)
    {migration : Migration} {s₁ : SkiplistHashRing}
    (hout : c.migrateOut (c.encryptor.encrypt (getRawNodeKey n i)) n s = .ok migration s₁)
    (hrem : rem (c.encryptor.encrypt (getRawNodeKey n i)) (getRawNodeKey n i) s₁ = .ok () s') :
    c.OnRing s' (P \ {(n, i)}) ∧ c.Draining s' n ∧ s'.nodeToReplicas = s.nodeToReplicas ∧
      ∀ k, s.Recorded k → s'.Recorded k := by
  have hmem := (h.placed _ _).2 ⟨n, i, hP, rfl, rfl⟩
  have h' := h.unlink hP rfl
  have hkn : getRawNodeKey n i ≠ n := getRawNodeKey_ne n i
  have hid : getNodeID (getRawNodeKey n i) = n := getNodeID_getRawNodeKey n i
  have hspec := migrateOut_spec h hmig (mem_scores_of_ids hmem) (fun m j hm hne =>
    (hname m j hm hne).1) hout
  generalize getRawNodeKey n i = key at *
  generalize c.encryptor.encrypt key = v at *
  have hsame : s₁.virtualNodes = s.virtualNodes ∧ s₁.nodeToReplicas = s.nodeToReplicas := by
    rcases hspec with ⟨rfl, -⟩ | ⟨-, toNode, -, hmoved⟩
    · exact ⟨rfl, rfl⟩
    · exact ⟨hmoved.virtualNodes, hmoved.nodeToReplicas⟩
  -- every record, after the keys have moved and before the virtual node is taken off
  have hcase : ∀ m k, k ∈ s₁.dataKeys m →
      (m = n ∧ (s.unlink v (s.ids v) key).owner (c.encryptor.encrypt k) = some n) ∨
        s.Heir n (c.encryptor.encrypt k) m := by
    intro m k hk
    rcases hspec with ⟨rfl, hnothing⟩ | ⟨-, toNode, htakes, hmoved⟩
    · refine (hD m k hk).imp_left fun ⟨hm, ho⟩ => ⟨hm, ?_⟩
      rcases hnothing with hhead | hempty
      · rw [owner_unlink_of_head h h' hmem hid hhead, ho]
      · rw [hm, hempty] at hk
        exact absurd hk (Finset.notMem_empty k)
    · rcases (hmoved.dataKeys m k).1 hk with ⟨rfl, -, hfirst⟩ | ⟨hold, hstay⟩
      · by_cases hmn : m = n
        · rw [hmn] at htakes
          exact .inl ⟨hmn, owner_unlink_of_takes h h' hmem htakes (c.encryptor.onCircle k) hfirst⟩
        · exact .inr (htakes.heir h (c.encryptor.onCircle k) hfirst hmn)
      · refine (hD m k hold).imp_left fun ⟨hm, ho⟩ => ⟨hm, ?_⟩
        have hfirst := h.exists_first_of_owner ho
        rw [owner_unlink_of_ne h h' hmem hfirst fun e => hstay ⟨hm, e ▸ hfirst⟩, ho]
  have hfree : ∀ m k, k ∈ s₁.dataKeys m → m ≠ key := by
    rintro m k hk rfl
    rcases hcase m k hk with ⟨hm, -⟩ | hheir
    · exact hkn hm
    · obtain ⟨w, -, hw⟩ := id hheir
      obtain ⟨j, hj⟩ := h.mem_of_nodesAt (firstOther_mem hw)
      exact (hname m j hj hheir.ne).2 rfl
  obtain ⟨s₂, hok, hvirtual, hreplicas, hkeys⟩ := rem_ok hmem hsame.1
  obtain rfl : s₂ = s' := (EStateM.Result.ok.inj (hok.symm.trans hrem)).2
  refine ⟨h'.congr hvirtual, fun m k hk => ?_, hreplicas.trans hsame.2, fun k hk => ?_⟩
  · rw [hkeys] at hk
    split_ifs at hk with hm
    · exact absurd hk (Finset.notMem_empty k)
    rw [owner_congr hvirtual, heir_congr (s := s)]
    · exact hcase m k hk
    · intro a
      rw [← firstOther_unlink hmem hid]
      unfold firstOther
      rw [nodesAt_congr hvirtual]
  · obtain ⟨m, hm⟩ : s₁.Recorded k := by
      rcases hspec with ⟨rfl, -⟩ | ⟨-, toNode, -, hmoved⟩
      · exact hk
      · exact hmoved.recorded hk
    exact ⟨m, by rwa [hkeys, if_neg (hfree m k hm)]⟩

/-! ## The walk ends -/

section Uncut

variable {α β : Type} {x : RingM α} {f : α → RingM β}

/-- The computation does not fail because a walk is cut off. -/
def Uncut (x : RingM α) (s : SkiplistHashRing) : Prop := ∀ s', x s ≠ .error .rounds s'

lemma uncut_pure (a : α) : Uncut (pure a : RingM α) s := fun s' h => by cases h

lemma Uncut.bind (hx : Uncut x s) (hf : ∀ a t, x s = .ok a t → Uncut (f a) t) :
    Uncut (x >>= f) s := by
  intro s' h
  change EStateM.bind x f s = _ at h
  unfold EStateM.bind at h
  cases hxs : x s with
  | ok a t =>
    rw [hxs] at h
    exact hf a t hxs s' h
  | error e t =>
    rw [hxs] at h
    cases h
    exact hx _ hxs

/-- No walk of the computation is cut off, and what it returns satisfies `Q`. -/
structure Ends (x : RingM α) (s : SkiplistHashRing) (Q : α → SkiplistHashRing → Prop) : Prop where
  uncut : Uncut x s
  post : ∀ a t, x s = .ok a t → Q a t

lemma Ends.pure {Q : α → SkiplistHashRing → Prop} {a : α} (h : Q a s) :
    Ends (Pure.pure a : RingM α) s Q := by
  refine ⟨uncut_pure a, fun b t hb => ?_⟩
  cases hb
  exact h

lemma Ends.throw {Q : α → SkiplistHashRing → Prop} (text : String) :
    Ends (MonadExcept.throw (Failure.error text) : RingM α) s Q := by
  refine ⟨fun t h => ?_, fun a t h => ?_⟩
  · cases h
  · cases h

/-- What a computation does depends on its result only. -/
lemma Ends.congr {y : RingM α} {t : SkiplistHashRing} {Q : α → SkiplistHashRing → Prop}
    (heq : x s = y t) (h : Ends y t Q) : Ends x s Q := by
  refine ⟨fun s' => ?_, fun a s' => ?_⟩
  · rw [heq]
    exact h.uncut s'
  · rw [heq]
    exact h.post a s'

lemma Ends.bind {R : β → SkiplistHashRing → Prop} (hx : Uncut x s)
    (hf : ∀ a t, x s = .ok a t → Ends (f a) t R) : Ends (x >>= f) s R := by
  refine ⟨hx.bind fun a t ha => (hf a t ha).uncut, fun b t hb => ?_⟩
  obtain ⟨a, u, ha, hb⟩ := run_bind_eq_ok.1 hb
  exact (hf a u ha).post b t hb

end Uncut

lemma uncut_rem (score : ℤ) (nodeID : String) : Uncut (rem score nodeID) s := by
  intro s' h
  unfold rem at h
  split at h
  · cases h
  · split_ifs at h
    cases h

/-- **The bound on the rounds of the walk is never reached.**

**Proof sketch.** The scores that the walk has passed are different scores of the ring, so there
are no more of them than scores. On a ring with one score the walk stops in its second round. -/
lemma uncut_getValidNextNode (h : c.OnRing s P) (hv : v ∈ s.Scores) :
    Uncut (getValidNextNode n (s.virtualNodes.keys.length + 1) v ∅) s := by
  have hcard : ∀ ranged : Finset ℤ, (∀ a ∈ ranged, a ∈ s.virtualNodes.keys) →
      ranged.card ≤ s.virtualNodes.keys.length := by
    intro ranged hranged
    rw [← toFinset_card_of_nodup s.virtualNodes.keys_nodup]
    exact Finset.card_le_card fun a ha => mem_toFinset.2 (hranged a ha)
  suffices hgen : ∀ rounds score (ranged : Finset ℤ), score ∈ s.Scores →
      (∀ a ∈ ranged, a ∈ s.virtualNodes.keys) →
      (score ∉ ranged ∧ s.virtualNodes.keys.length < rounds + ranged.card ∨
        score ∈ ranged ∧ s.ceiling (next maxInt32 score) = score ∧ 0 < rounds) →
      Uncut (getValidNextNode n rounds score ranged) s from
    hgen _ v ∅ hv (by simp) (.inl ⟨by simp, by simp⟩)
  intro rounds
  induction rounds with
  | zero =>
    rintro score ranged - hranged (⟨-, hlt⟩ | ⟨-, -, hlt⟩)
    · have := hcard ranged hranged
      omega
    · omega
  | succ rounds ih =>
    intro score ranged hscore hranged hcases s' herr
    unfold getValidNextNode at herr
    rw [get_bind, incrScore_eq (h.onCircle _ hscore)] at herr
    have hfirst := h.first ⟨score, hscore⟩ (next maxInt32 score)
    split_ifs at herr with hstop
    · cases herr
    rw [node_bind _ hfirst.mem] at herr
    rw [Bool.or_eq_true, not_or, decide_eq_true_eq, decide_eq_true_eq] at hstop
    cases hids : s.ids (s.ceiling (next maxInt32 score)) with
    | nil => exact absurd hids (h.linked.ids_ne_nil hfirst.mem)
    | cons first others =>
      simp only [hids] at herr
      split_ifs at herr
      · cases herr
      cases others with
      | cons other others => cases herr
      | nil =>
        have hpassed : ∀ a ∈ insert score ranged, a ∈ s.virtualNodes.keys := by
          intro a ha
          rcases Finset.mem_insert.1 ha with rfl | ha
          · exact mem_keys_iff.2 hscore
          · exact hranged a ha
        have hle := hcard _ hpassed
        refine ih _ (insert score ranged) hfirst.mem hpassed ?_ s' herr
        · obtain ⟨hnew, hlt⟩ | ⟨hin, halone, -⟩ := hcases
          · rw [Finset.card_insert_of_notMem hnew] at hle ⊢
            rw [Finset.mem_insert, not_or]
            by_cases hsame : s.ceiling (next maxInt32 score) = score
            · exact .inr ⟨.inl hsame, by rw [hsame, hsame], by omega⟩
            · exact .inl ⟨⟨hsame, hstop.2⟩, by omega⟩
          · rw [halone] at hstop
            exact absurd hin hstop.2

lemma uncut_heirAt (h : c.OnRing s P) (hv : v ∈ s.Scores) (others : List String) :
    Uncut (heirAt v n others) s := by
  cases others with
  | cons other others => exact uncut_pure _
  | nil =>
    refine (uncut_getValidNextNode h hv).bind fun toNode t _ => ?_
    split_ifs
    · exact fun s' h => by cases h
    · exact uncut_pure _

lemma uncut_migrateOut (h : c.OnRing s P) (hv : v ∈ s.Scores) : Uncut (c.migrateOut v n) s := by
  intro s' herr
  unfold migrateOut at herr
  split_ifs at herr
  · cases herr
  rw [node_bind _ hv] at herr
  cases hids : s.ids v with
  | nil => exact absurd hids (h.linked.ids_ne_nil hv)
  | cons first others =>
    simp only [hids] at herr
    split_ifs at herr
    · cases herr
    rw [get_bind] at herr
    split_ifs at herr
    · cases herr
    rw [get_bind] at herr
    split_ifs at herr
    · cases herr
    refine (uncut_heirAt h hv others).bind (fun toNode t _ => ?_) s' herr
    split_ifs
    · exact uncut_pure _
    · exact uncut_pure _

end ConsistentHash

end Yukino.HashRing
