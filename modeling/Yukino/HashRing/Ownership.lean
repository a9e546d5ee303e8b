import Yukino.HashRing.Departure

set_option autoImplicit false

/-!
# Every data key stays with the node that owns it

A key is recorded for its owner when it is looked up; `AddNode` and `RemoveNode` move the records
so that they stay with the owners.

## Main definitions

* `ConsistentHash.Inv` — the ring between two calls.

## Main results

* `ConsistentHash.Inv.call`, `ConsistentHash.Inv.run` — one call,
  and sequences of calls.
* `ConsistentHash.run_ne_rounds` — the walks of the calls end.
* `ConsistentHash.keys_with_owner` — every key is with its owner, and only there.
* `ConsistentHash.key_lost_by_raw_id` — a run in which a key is lost.
-/

namespace Yukino.HashRing

open MachineInt SkiplistHashRing RingWalk Outcome List AList Bool

namespace ConsistentHash

variable {c : ConsistentHash} {s s' : SkiplistHashRing} {P : Set (String × ℕ)} {n m : String}
  {i : ℕ} {d v : ℤ}

/-! ## The loops over the replicas -/

/-- The virtual nodes of `n` with the indices of a list. -/
def replicasOf (n : String) (is : List ℕ) : Set (String × ℕ) :=
  {p | p.1 = n ∧ p.2 ∈ is}

variable {is : List ℕ} {K : Set String} {k : String} {ops : List Call}

lemma Settled.addReplicas (hs : c.Settled s) (hmig : c.migrator = true) (h : c.OnRing s P)
    (hnodup : is.Nodup) (hnew : ∀ i ∈ is, (n, i) ∉ P) :
    ∃ tasks s', c.addReplicas n is s = .ok tasks s' ∧ c.OnRing s' (P ∪ replicasOf n is) ∧
      c.Settled s' ∧ s'.nodeToReplicas = s.nodeToReplicas ∧
      ∀ k, s.Recorded k → s'.Recorded k := by
  induction is generalizing s P with
  | nil =>
    refine ⟨[], s, rfl, ?_, hs, rfl, fun k hk => hk⟩
    simpa [replicasOf] using h
  | cons i is ih =>
    obtain ⟨hi, hnodup⟩ := nodup_cons.1 hnodup
    obtain ⟨migration, s₁, hrun, h₁, hs₁, hrep₁, hrec₁⟩ :=
      hs.addReplica hmig h (hnew i mem_cons_self)
    obtain ⟨tasks, s₂, hrun₂, h₂, hs₂, hrep₂, hrec₂⟩ := ih hs₁ h₁ hnodup (by
      rintro j hj (hpair | hP)
      · cases hpair
        exact hi hj
      · exact hnew j (mem_cons_of_mem _ hj) hP)
    refine ⟨if migration.dataSet = ∅ then tasks else migration :: tasks, s₂, ?_, ?_,
      hs₂, hrep₂.trans hrep₁, fun k hk => hrec₂ k (hrec₁ k hk)⟩
    · unfold ConsistentHash.addReplicas
      rw [modify_bind, run_bind_eq_ok]
      exact ⟨_, _, hrun, run_bind_eq_ok.2 ⟨_, _, hrun₂, rfl⟩⟩
    · convert h₂ using 1
      ext ⟨m, j⟩
      simp only [replicasOf, Set.mem_union, Set.mem_ofPred_eq, mem_cons, Set.mem_insert_iff,
        Prod.mk.injEq]
      tauto

lemma Draining.removeReplicas (hD : c.Draining s n) (hmig : c.migrator = true)
    (h : c.OnRing s P) (hnodup : is.Nodup) (hP : ∀ i ∈ is, (n, i) ∈ P)
    (hname : ∀ m j, (m, j) ∈ P → m ≠ n → m ≠ "" ∧ ∀ i ∈ is, m ≠ getRawNodeKey n i) :
    Ends (c.removeReplicas n is) s fun _ s' => c.OnRing s' (P \ replicasOf n is) ∧
      c.Draining s' n ∧ s'.nodeToReplicas = s.nodeToReplicas ∧
      ∀ k, s.Recorded k → s'.Recorded k := by
  induction is generalizing s P with
  | nil =>
    refine .pure ⟨?_, hD, rfl, fun k hk => hk⟩
    simpa [replicasOf] using h
  | cons i is ih =>
    obtain ⟨hi, hnodup⟩ := nodup_cons.1 hnodup
    have hmem := (h.placed _ _).2 ⟨n, i, hP i mem_cons_self, rfl, rfl⟩
    refine .bind (uncut_migrateOut h (mem_scores_of_ids hmem)) fun migration s₁ hout =>
      .bind (uncut_rem _ _) fun _ s₂ hrem => ?_
    obtain ⟨h₂, hD₂, hrep₂, hrec₂⟩ := hD.removeReplica hmig h (hP i mem_cons_self)
      (fun m j hm hne => ⟨(hname m j hm hne).1, (hname m j hm hne).2 i mem_cons_self⟩)
      hout hrem
    have hrest := ih hD₂ h₂ hnodup
      (fun j hj => ⟨hP j (mem_cons_of_mem _ hj), fun hpair => by
        cases hpair
        exact hi hj⟩)
      (fun m j hm hne => ⟨(hname m j hm.1 hne).1, fun a ha =>
        (hname m j hm.1 hne).2 a (mem_cons_of_mem _ ha)⟩)
    refine .bind hrest.uncut fun tasks s₃ hloop => .pure ?_
    obtain ⟨h₃, hD₃, hrep₃, hrec₃⟩ := hrest.post tasks s₃ hloop
    refine ⟨?_, hD₃, hrep₃.trans hrep₂, fun k hk => hrec₃ k (hrec₂ k hk)⟩
    convert h₃ using 1
    ext ⟨m, j⟩
    simp only [replicasOf, Set.mem_sdiff, Set.mem_ofPred_eq, mem_cons,
      Set.mem_singleton_iff, Prod.mk.injEq]
    tauto

/-! ## Calls -/

/-- The virtual nodes that the registered nodes have. -/
def Registered (s : SkiplistHashRing) : Set (String × ℕ) :=
  {p | ∃ replicas, s.nodeToReplicas.lookup p.1 = some replicas ∧ p.2 < replicas.toNat}

/-- The ring between two calls: it has the virtual nodes of the registered nodes, every record is
with the owner of the key, and the keys of `K` are recorded. -/
structure Inv (c : ConsistentHash) (s : SkiplistHashRing) (K : Set String) : Prop where
  onRing : c.OnRing s (Registered s)
  settled : c.Settled s
  recorded : ∀ k ∈ K, s.Recorded k

/-- Before the first replica goes, every record is where it may be while `n` leaves. -/
lemma Settled.draining (hs : c.Settled s) (h : c.OnRing s P) (n : String) : c.Draining s n := by
  intro m k hk
  have ho := hs m k hk
  by_cases hmn : m = n
  · exact .inl ⟨hmn, hmn ▸ ho⟩
  · exact .inr (h.heir_of_owner ho hmn)

/-- After the last replica has gone, every record is with the owner. -/
lemma Draining.settled (hD : c.Draining s n) (h : c.OnRing s P) (hgone : ∀ i, (n, i) ∉ P) :
    c.Settled s := by
  intro m k hk
  have hnot : ∀ v, n ∉ s.nodesAt v := fun v hv =>
    let ⟨i, hi⟩ := h.mem_of_nodesAt hv
    hgone i hi
  rcases hD m k hk with ⟨-, ho⟩ | ⟨w, hw, hfo⟩
  · obtain ⟨i, hi⟩ := h.mem_of_owner ho
    exact absurd hi (hgone i)
  · -- without `n` the first other node of a score is its first node
    have hhead : ∀ v, s.firstOther n v = (s.nodesAt v).head? := by
      intro v
      cases hl : s.nodesAt v with
      | nil => simp [firstOther, hl]
      | cons b l =>
        have hb : b ≠ n := fun e => hnot v (by simp [hl, e])
        simp [firstOther, hl, hb]
    have hall : s.Others n = s.Scores := by
      refine Set.Subset.antisymm others_subset fun v hv => ?_
      obtain ⟨b, l, hl⟩ := exists_cons_of_ne_nil (h.nodesAt_ne_nil hv)
      simp [Others, hhead, hl]
    rw [hall] at hw
    rw [h.owner_eq hw, ← hhead, hfo]

lemma Inv.addNode (hinv : c.Inv s K) (hmig : c.migrator = true) (weight : ℤ) :
    Ends (c.addNode n weight) s fun _ s' => c.Inv s' K := by
  generalize hreplicas : int64 (getValidWeight weight * c.opts.replicas) = replicas
  have heq : c.addNode n weight s = (if n ∈ s.nodeToReplicas then throw (.error "repeat node")
      else do
        modify (·.addNodeToReplica n replicas)
        c.addReplicas n (range replicas.toNat) : RingM (List Migration)) s := by
    rw [← hreplicas]
    rfl
  refine .congr heq ?_
  split_ifs with hmem
  · exact .throw _
  have hlookup : s.nodeToReplicas.lookup n = none := lookup_eq_none.2 hmem
  have h₀ : c.OnRing (s.addNodeToReplica n replicas) (Registered s) := hinv.onRing.congr rfl
  have hs₀ : c.Settled (s.addNodeToReplica n replicas) := hinv.settled
  have hnew : ∀ i ∈ range replicas.toNat, (n, i) ∉ Registered s := by
    rintro i - ⟨r, hr, -⟩
    simp [hlookup] at hr
  obtain ⟨tasks', s₁, hloop, h₁, hs₁, hrep₁, hrec₁⟩ :=
    hs₀.addReplicas hmig h₀ nodup_range hnew
  refine .congr (y := pure tasks') hloop (.pure ⟨?_, hs₁, fun k hk => hrec₁ k (hinv.recorded k hk)⟩)
  convert h₁ using 1
  ext ⟨m, i⟩
  simp only [Registered, replicasOf, hrep₁, addNodeToReplica]
  by_cases hmn : m = n
  · subst hmn
    simp [hlookup]
  · simp [hmn]

lemma Inv.removeNode (hinv : c.Inv s K) (hmig : c.migrator = true)
    (hclean : (Call.removeNode n).undisturbed s = true) :
    Ends (c.removeNode n) s fun _ s' => c.Inv s' K := by
  cases hlookup : s.nodeToReplicas.lookup n with
  | none =>
    refine .congr (t := s) ?_ (.throw "invalid node id")
    unfold ConsistentHash.removeNode
    rw [get_bind, hlookup]
  | some replicas =>
    have heq : c.removeNode n s =
        c.removeReplicas n (range replicas.toNat) (s.deleteNodeToReplica n) := by
      unfold ConsistentHash.removeNode
      rw [get_bind, hlookup]
      rfl
    have h₀ : c.OnRing (s.deleteNodeToReplica n) (Registered s) := hinv.onRing.congr rfl
    have hD₀ : c.Draining (s.deleteNodeToReplica n) n := hinv.settled.draining hinv.onRing n
    simp only [Call.undisturbed, hlookup, all_eq_true, or_eq_true,
      decide_eq_true_eq, and_eq_true, mem_range] at hclean
    have hloop := hD₀.removeReplicas hmig h₀ (nodup_range (n := replicas.toNat))
      (fun i hi => ⟨replicas, hlookup, mem_range.1 hi⟩)
      (fun m j ⟨r, hr, hj⟩ hne => by
        have hm : m ∈ s.nodeToReplicas.keys :=
          mem_keys.1 (lookup_isSome.1 (by simp [hr]))
        obtain ⟨hempty, hraw⟩ := (hclean m hm).resolve_left hne
        exact ⟨hempty, fun i hi => hraw i (mem_range.1 hi)⟩)
    refine .congr heq ⟨hloop.uncut, fun tasks s' hok => ?_⟩
    obtain ⟨h₁, hD₁, hrep₁, hrec₁⟩ := hloop.post tasks s' hok
    have hreg : Registered s \ replicasOf n (range replicas.toNat) = Registered s' := by
      ext ⟨m, i⟩
      simp only [Registered, replicasOf, hrep₁, deleteNodeToReplica]
      by_cases hmn : m = n
      · subst hmn
        simp [hlookup]
      · simp [hmn]
    refine ⟨hreg ▸ h₁, hD₁.settled h₁ ?_, fun k hk => hrec₁ k (hinv.recorded k hk)⟩
    rintro i ⟨⟨r, hr, hi⟩, hnot⟩
    rw [hlookup] at hr
    cases hr
    exact hnot ⟨rfl, mem_range.2 hi⟩

/-- `GetNode` returns the owner and records the key for it. -/
lemma getNode_eq (h : c.OnRing s P)
    (ho : s.owner (c.encryptor.encrypt k) = some m) :
    c.getNode k s = .ok m (s.addNodeToDataKeys m {k}) := by
  have hfirst := h.exists_first_of_owner ho
  have hscore : s.ceiling (c.encryptor.encrypt k) ≠ -1 := by
    have := (h.onCircle _ hfirst.mem).1
    omega
  obtain ⟨first, others, hids⟩ := exists_cons_of_ne_nil (h.linked.ids_ne_nil hfirst.mem)
  have hm : getNodeID first = m := by simpa [owner, nodesAt, hids] using ho
  unfold ConsistentHash.getNode
  rw [get_bind]
  simp only [if_neg hscore]
  rw [node_bind _ hfirst.mem, hids]
  simp only [hm]
  rfl

lemma Inv.getNode (hinv : c.Inv s K) :
    Ends (c.getNode k) s fun _ s' => c.Inv s' (insert k K) := by
  by_cases hnonempty : s.Scores.Nonempty
  swap
  · refine .congr (t := s) ?_ (.throw "no node available")
    unfold ConsistentHash.getNode
    rw [get_bind, ceiling_of_empty fun a ha => hnonempty ⟨a, ha⟩]
    rfl
  -- there is a score, so some node owns the key
  have hfirst := hinv.onRing.first hnonempty (c.encryptor.encrypt k)
  obtain ⟨x, rest, hx⟩ := exists_cons_of_ne_nil (hinv.onRing.nodesAt_ne_nil hfirst.mem)
  have ho : s.owner (c.encryptor.encrypt k) = some x := by rw [owner, hx, head?_cons]
  have hkeys := dataKeys_addNodeToDataKeys s x
  refine .congr (y := pure x) (getNode_eq hinv.onRing ho)
    (.pure ⟨hinv.onRing.congr rfl, fun m k' hk' => ?_, fun k' hk' => ?_⟩)
  · rw [owner_congr (virtualNodes_addNodeToDataKeys s x {k})]
    rw [hkeys] at hk'
    split_ifs at hk' with hmx
    · rcases Finset.mem_union.1 hk' with hold | hnew
      · exact hmx ▸ hinv.settled x k' hold
      · rw [Finset.mem_singleton.1 hnew, ho, hmx]
    · exact hinv.settled m k' hk'
  · rcases hk' with rfl | hK
    · exact ⟨x, by simp [hkeys]⟩
    · obtain ⟨m, hm⟩ := hinv.recorded k' hK
      refine ⟨m, ?_⟩
      rw [hkeys]
      split_ifs with hmx
      · exact Finset.mem_union_left _ (hmx ▸ hm)
      · exact hm

/-- The data keys that a call looks up. -/
def Call.keys : Call → Set String
  | .getNode k => {k}
  | _ => ∅

/-- **One call** keeps the invariant and records the key it looks up, and no walk is cut off. -/
theorem Inv.call (hinv : c.Inv s K) (hmig : c.migrator = true) {op : Call}
    (hclean : op.undisturbed s = true) : Ends (c.call op) s fun _ s' => c.Inv s' (op.keys ∪ K) := by
  cases op with
  | addNode nodeID weight =>
    have hadd := hinv.addNode hmig weight (n := nodeID)
    refine .bind hadd.uncut fun tasks s₁ hrun => .pure ?_
    simpa [Call.keys] using hadd.post tasks s₁ hrun
  | removeNode nodeID =>
    have hremove := hinv.removeNode hmig hclean
    refine .bind hremove.uncut fun tasks s₁ hrun => .pure ?_
    simpa [Call.keys] using hremove.post tasks s₁ hrun
  | getNode dataKey =>
    have hget := hinv.getNode (k := dataKey)
    refine .bind hget.uncut fun m s₁ hrun => .pure ?_
    simpa [Call.keys] using hget.post m s₁ hrun

/-- **Sequences of calls** keep the invariant, and the bound on the rounds of the walks is never
reached. -/
theorem Inv.run (hinv : c.Inv s K) (hmig : c.migrator = true)
    (hclean : c.undisturbed ops s = true) :
    Ends (c.run ops) s fun _ s' => c.Inv s' ({k | Call.getNode k ∈ ops} ∪ K) := by
  induction ops generalizing s K with
  | nil => exact .pure (by simpa using hinv)
  | cons op ops ih =>
    unfold ConsistentHash.undisturbed at hclean
    rw [and_eq_true] at hclean
    have hfirst := hinv.call hmig hclean.1
    refine .bind hfirst.uncut fun _ s₁ hcall => ?_
    rw [hcall] at hclean
    convert ih (hfirst.post _ s₁ hcall) hclean.2 using 4
    ext k
    cases op with
    | addNode | removeNode => simp [Call.keys]
    | getNode dataKey =>
      simp [Call.keys]
      tauto

lemma inv_new (c : ConsistentHash) : c.Inv {} ∅ where
  onRing :=
    { linked := by
        intro score nodeIDs hget
        cases hget
      placed := by
        simp [ids, SkiplistHashRing.get, Registered] }
  settled := by
    intro m k hk
    simp [dataKeys] at hk
  recorded := by
    intro k hk
    exact absurd hk (Set.notMem_empty k)

/-- **The walk to the next node ends.** In a run of undisturbed calls, no call fails because the
model bounds the rounds of the loop of `getValidNextNode`. -/
theorem run_ne_rounds (hmig : c.migrator = true) (hclean : c.undisturbed ops {} = true) :
    c.run ops {} ≠ .error .rounds s :=
  ((inv_new c).run hmig hclean).uncut s

/-- **Data keys stay with their owners.** After calls that all succeed, every key that was looked
up is recorded for one node only; the node is registered, and looking the key up again returns it.
A node that is not registered has no data keys. -/
theorem keys_with_owner (c : ConsistentHash) (hmig : c.migrator = true) (ops : List Call)
    (s : SkiplistHashRing) (hrun : c.run ops {} = .ok () s)
    (hclean : c.undisturbed ops {} = true) :
    (∀ k, Call.getNode k ∈ ops → ∃ m ∈ s.nodeToReplicas, (∀ m', k ∈ s.dataKeys m' ↔ m' = m) ∧
      ∃ s', c.getNode k s = .ok m s') ∧
    ∀ m, m ∉ s.nodeToReplicas → s.dataKeys m = ∅ := by
  have hinv := ((inv_new c).run hmig hclean).post () s hrun
  have hmember : ∀ m k, k ∈ s.dataKeys m → m ∈ s.nodeToReplicas := by
    intro m k hk
    obtain ⟨i, r, hr, -⟩ := hinv.onRing.mem_of_owner (hinv.settled m k hk)
    exact lookup_isSome.1 (by simp [hr])
  refine ⟨fun k hk => ?_, fun m hm => ?_⟩
  · obtain ⟨m, hm⟩ := hinv.recorded k (.inl hk)
    have ho := hinv.settled m k hm
    refine ⟨m, hmember m k hm, fun m' => ⟨fun hm' => ?_, fun e => e ▸ hm⟩, _,
      getNode_eq hinv.onRing ho⟩
    exact Option.some.inj ((hinv.settled m' k hm').symm.trans ho)
  · exact Finset.eq_empty_of_forall_notMem fun k hk => hm (hmember m k hk)

/-- An encryptor given by a table, with `5` for every other text. -/
def tableEncryptor (table : List (String × Fin 100)) : Encryptor where
  encrypt origin := ((table.lookup origin).getD 5).val
  onCircle origin := by
    unfold RingWalk.OnCircle maxInt32
    omega

/-- The node `a` goes, and its key is with `b` afterwards. -/
theorem keys_with_owner_after_removal :
    ∃ (c : ConsistentHash) (s : SkiplistHashRing),
      c.run [.addNode "a" 1, .addNode "b" 1, .getNode "k", .removeNode "a"] {} = .ok () s ∧
        (∀ m, "k" ∈ s.dataKeys m ↔ m = "b") ∧ s.dataKeys "a" = ∅ := by
  let c := newConsistentHash (tableEncryptor [("a_0", 10), ("b_0", 20)]) true { replicas := 1 }
  let ops : List Call := [.addNode "a" 1, .addNode "b" 1, .getNode "k", .removeNode "a"]
  obtain ⟨s, hrun, hmembers⟩ : ∃ s, c.run ops {} = .ok () s ∧ s.nodeToReplicas.keys = ["b"] := by
    decide +kernel
  have hmem : ∀ m, m ∈ s.nodeToReplicas ↔ m = "b" := by
    intro m
    rw [AList.mem_keys, hmembers, List.mem_singleton]
  obtain ⟨hkeys, hgone⟩ := keys_with_owner c rfl ops s hrun (by decide +kernel)
  obtain ⟨m, hm, honly, -⟩ := hkeys "k" (by simp [ops])
  rw [(hmem m).1 hm] at honly
  exact ⟨c, s, hrun, honly, hgone "a" fun ha => absurd ((hmem "a").1 ha) (by decide)⟩

/-- Removing the node `a` deletes the data keys recorded for the node whose id is `a_0`, the raw
key of a virtual node of `a`: the key is recorded nowhere, though it still belongs to `a_0`. -/
theorem key_lost_by_raw_id :
    ∃ (c : ConsistentHash) (s : SkiplistHashRing), c.migrator = true ∧
      c.run [.addNode "a_0" 1, .addNode "a" 1, .getNode "k", .removeNode "a"] {} = .ok () s ∧
        (∃ s', c.getNode "k" s = .ok "a_0" s') ∧ ∀ m, "k" ∉ s.dataKeys m := by
  let c := newConsistentHash (tableEncryptor [("a_0_0", 10), ("a_0", 20)]) true { replicas := 1 }
  obtain ⟨s, hrun, hlost, s', hget, -⟩ :
      ∃ s, c.run [.addNode "a_0" 1, .addNode "a" 1, .getNode "k", .removeNode "a"] {} = .ok () s ∧
        (∀ m ∈ s.nodeToDataKey.keys, "k" ∉ s.dataKeys m) ∧
        ∃ s', c.getNode "k" s = .ok "a_0" s' ∧ True := by decide +kernel
  refine ⟨c, s, rfl, hrun, ⟨s', hget⟩, fun m hm => ?_⟩
  by_cases hkey : m ∈ s.nodeToDataKey.keys
  · exact hlost m hkey hm
  · rw [← AList.mem_keys, ← AList.lookup_eq_none] at hkey
    simp [dataKeys, hkey] at hm

end ConsistentHash

end Yukino.HashRing
