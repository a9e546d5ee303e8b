import Yukino.Raft.Delivery

set_option autoImplicit false

/-!
# Pending membership changes

A leader replaces a proposed membership change by an empty entry while its flag
`pendingConf` is set. The flag follows the log of a leader that started with no pending
change in its log: it is set when a change is appended and cleared when one is applied. But
`reset` clears it at every change of the role or the term, and a new leader does not look
for changes that it has inherited. So a leader may have several pending changes.

## Main definitions

* `confsBeyond` — the number of membership changes beyond an index.
* `Cluster.pendingConfs` — those that node `i` has neither passed with `applyIndex` nor applied.
* `ClusterConfig.confSafe` — the events after which a new leader has no pending change in its log.

## Main results

* `one_pending_conf` — along such events a leader has at most one pending change.
* `two_pending_confs` — a new leader that inherits one can accept another.
-/

namespace Yukino.Replica

open Outcome List

/-! ## Counting membership changes -/

/-- The number of membership changes with an index above `b`. -/
def confsBeyond (b : ℕ) (es : List Entry) : ℕ :=
  es.countP fun e => e.type = .confChange ∧ b < e.index

/-- The membership changes in the log of node `i` with an index above its `applyIndex`, after
the last one that it has applied. -/
def Cluster.pendingConfs (s : Cluster) (i : ℕ) (n : Node) : ℕ :=
  confsBeyond (max n.raft.raftLog.applyIndex (s.confIndex i)) n.raft.raftLog.abs

lemma confsBeyond_append (b : ℕ) (xs ys : List Entry) :
    confsBeyond b (xs ++ ys) = confsBeyond b xs + confsBeyond b ys :=
  countP_append

lemma confsBeyond_mono {b b' : ℕ} (h : b ≤ b') (es : List Entry) :
    confsBeyond b' es ≤ confsBeyond b es := by
  refine countP_mono_left fun e _ he => ?_
  simp only [decide_eq_true_eq] at he ⊢
  exact ⟨he.1, h.trans_lt he.2⟩

lemma confsBeyond_le (b : ℕ) (es : List Entry) : confsBeyond b es ≤ numOfPendingConf es := by
  refine countP_mono_left fun e _ he => ?_
  simp only [decide_eq_true_eq] at he ⊢
  exact he.1

/-- A membership change is not beyond its own index. -/
lemma confsBeyond_lt {b : ℕ} {es : List Entry} {e : Entry} (he : e ∈ es)
    (ht : e.type = .confChange) (hb : b < e.index) :
    confsBeyond e.index es < confsBeyond b es := by
  obtain ⟨xs, ys, rfl⟩ := append_of_mem he
  have hsplit : ∀ b, confsBeyond b (xs ++ e :: ys) =
      confsBeyond b xs + (confsBeyond b [e] + confsBeyond b ys) := by
    intro b
    rw [confsBeyond_append, ← singleton_append, confsBeyond_append]
  have hxs := confsBeyond_mono hb.le xs
  have hys := confsBeyond_mono hb.le ys
  have h0 : confsBeyond e.index [e] = 0 := by simp [confsBeyond]
  have h1 : confsBeyond b [e] = 1 := by simp [confsBeyond, ht, hb]
  rw [hsplit, hsplit]
  omega

namespace Raft

variable {m : Message} {r r' : Raft}

lemma numOfPendingConf_stampEntries (r : Raft) (es : List Entry) :
    numOfPendingConf (r.stampEntries es) = numOfPendingConf es := by
  unfold numOfPendingConf stampEntries
  rw [mapIdx_eq_zipIdx_map, countP_map]
  conv_rhs => rw [← zipIdx_map_fst 0 es, countP_map]
  rfl

/-- What a leader lets through: with the flag set no membership change, with the flag clear
at most one, and then the flag is set. -/
lemma filterConf_pending (pending : Bool) (es : List Entry) :
    numOfPendingConf (filterConf pending es).1 ≤ 1 ∧
      (pending = true → numOfPendingConf (filterConf pending es).1 = 0) ∧
      ((filterConf pending es).2 = false →
        pending = false ∧ numOfPendingConf (filterConf pending es).1 = 0) := by
  induction es generalizing pending with
  | nil => simp [filterConf, numOfPendingConf]
  | cons e es ih =>
    unfold filterConf
    split
    · rename_i he
      obtain ⟨-, h0, hflag⟩ := ih true
      -- the flag is set from here on
      have hset : (filterConf true es).2 = true := by
        by_contra hf
        exact absurd (hflag (Bool.not_eq_true _ ▸ hf)).1 (by simp)
      have hrest : numOfPendingConf (filterConf true es).1 = 0 := h0 rfl
      cases pending with
      | true =>
        refine ⟨?_, fun _ => ?_, fun hf => ?_⟩
        · exact hrest.trans_le (Nat.zero_le _)
        · exact hrest
        · exact absurd (hset.symm.trans hf) (by simp)
      | false =>
        refine ⟨?_, fun hf => ?_, fun hf => ?_⟩
        · unfold numOfPendingConf at hrest ⊢
          simp [he, hrest]
        · cases hf
        · exact absurd (hset.symm.trans hf) (by simp)
    · rename_i he
      simpa [numOfPendingConf, he] using ih pending

/-! ## The flag of a leader -/

/-- At most one membership change is beyond `b`, and none when the flag is clear. -/
structure ConfOk (b : ℕ) (r : Raft) : Prop where
  le_one : confsBeyond b r.raftLog.abs ≤ 1
  clear : r.pendingConf = false → confsBeyond b r.raftLog.abs = 0

/-- A leader that has appended to its log. -/
lemma confOk_extendLog {b : ℕ} {xs : List Entry} (h : r.ConfOk b) (hwf : r.raftLog.WF)
    (hne : xs ≠ [])
    (hx : { r with pendingConf := (filterConf r.pendingConf xs).2 }.extendLog
      (filterConf r.pendingConf xs).1 = .ok r') :
    r'.ConfOk b ∧ r.raftLog.abs <+: r'.raftLog.abs := by
  obtain ⟨hle, hset, hclear⟩ := filterConf_pending r.pendingConf xs
  have hnil : (filterConf r.pendingConf xs).1 ≠ [] := filterConf_ne hne
  generalize filterConf r.pendingConf xs = filtered at *
  obtain ⟨es, flag⟩ := filtered
  dsimp only at *
  obtain ⟨l, pr, hl, hpr, -⟩ := extendLog_eq_ok hx
  obtain ⟨u, hu, -, habs⟩ := extendLog_eq (r := { r with pendingConf := flag }) hwf hnil hpr
  rw [hu] at hx
  cases hx
  dsimp only at habs
  have hnew := confsBeyond_le b (stampEntries { r with pendingConf := flag } es)
  rw [numOfPendingConf_stampEntries] at hnew
  replace hnew := Nat.add_le_add_left hnew (confsBeyond b r.raftLog.abs)
  rw [← confsBeyond_append, ← habs] at hnew
  refine ⟨⟨hnew.trans ?_, fun hf => ?_⟩, ?_⟩
  · -- with the flag set nothing is added, with the flag clear nothing was there
    cases hp : r.pendingConf with
    | true =>
      have := hset hp
      have := h.le_one
      omega
    | false =>
      have := h.clear hp
      omega
  · obtain ⟨hp, h0⟩ := hclear hf
    have := h.clear hp
    dsimp only
    omega
  · rw [habs]
    exact prefix_append _ _

/-- **A reaction of a leader** ends in a higher term, or the node is still leader of its
term, has only appended to its log, and its flag fits the log. -/
lemma Actions.of_leader {b : ℕ} (ha : Actions m r r') (hm : m.WF) (hwf : r.LogWF)
    (hl : r.state = .leader) (h : r.ConfOk b) :
    r.term < r'.term ∨ r'.state = .leader ∧ r'.term = r.term ∧ r'.ConfOk b ∧
      r.raftLog.abs <+: r'.raftLog.abs := by
  refine (ha.invariant (P := fun r' => r'.LogWF ∧ (r.term < r'.term ∨ r'.state = .leader ∧
    r'.term = r.term ∧ r'.ConfOk b ∧ r.raftLog.abs <+: r'.raftLog.abs)) ?_
    ⟨hwf, .inr ⟨hl, rfl, h, prefix_rfl⟩⟩).2
  rintro r₁ r₂ hlast ⟨hwf₁, h₁⟩
  refine ⟨(hlast.logWF hwf₁ hm).1, ?_⟩
  rcases h₁ with hlt | ⟨hl₁, ht₁, hok₁, hpre₁⟩
  · exact .inl (hlt.trans_le (hlast.term_le hm.heartbeat))
  · rcases hlast.of_leader hm hl₁ with ⟨hlt, -⟩ | ⟨hl₂, ht₂, ⟨xs, hne, hx⟩ | ⟨hflag, habs⟩⟩
    · exact .inl (ht₁ ▸ hlt)
    · obtain ⟨hok₂, hpre₂⟩ := confOk_extendLog hok₁ hwf₁.log hne hx
      exact .inr ⟨hl₂, ht₂.trans ht₁, hok₂, hpre₁.trans hpre₂⟩
    · refine .inr ⟨hl₂, ht₂.trans ht₁, ⟨?_, ?_⟩, ?_⟩
      · rw [habs]
        exact hok₁.le_one
      · rw [habs, hflag]
        exact hok₁.clear
      · rw [habs]
        exact hpre₁

end Raft

/-! ## Runs -/

/-- A new leader has no membership change in its log beyond the last one it has applied, and
its log still has the entries of an outstanding `Ready`. -/
def Node.confClear (n : Node) (b : ℕ) : Bool :=
  confsBeyond b n.raft.raftLog.abs = 0 ∧
    (n.hasPrevLastUnstableI = true → n.readyLog <+: n.raft.raftLog.abs)

/-- The event restarts no node, and every node that becomes leader by it has no membership
change pending in its log. -/
def ClusterConfig.confSafe (c : ClusterConfig) (s : Cluster) (ev : Event) : Bool :=
  !ev.isRestart && c.electsOnly (fun s' i n' => n'.confClear (s'.confIndex i)) s ev

/-- The flag of a leader fits its log, which has the entries of an outstanding `Ready`. -/
structure Node.ConfOk (b : ℕ) (n : Node) : Prop where
  flag : n.raft.ConfOk b
  saved : n.hasPrevLastUnstableI = true → n.readyLog <+: n.raft.raftLog.abs

namespace Cluster

lemma confIndex_append_self (s : Cluster) (i index : ℕ) :
    confIndex { s with confs := s.confs ++ [(i, index)] } i = max (s.confIndex i) index := by
  unfold confIndex
  rw [filter_append, map_append, foldr_append]
  induction (s.confs.filter fun c => c.1 = i).map Prod.snd with
  | nil => simp
  | cons k ks ih => rw [foldr_cons, ih, foldr_cons, max_assoc]

lemma confIndex_append_ne (s : Cluster) {i j : ℕ} (h : j ≠ i) (index : ℕ) :
    confIndex { s with confs := s.confs ++ [(i, index)] } j = s.confIndex j := by
  unfold confIndex
  simp [h.symm]

/-- The flags of all leaders fit their logs. -/
def ConfOk (s : Cluster) : Prop :=
  ∀ i n, s.nodes.lookup i = some n → n.raft.state = .leader → n.ConfOk (s.confIndex i)

end Cluster

namespace Node

variable {n : Node} {b : ℕ}

variable (h : n.ConfOk b) (hwf : n.WF)
include h hwf

/-- A leader keeps its flag in step when it hands out a `Ready`. -/
lemma ConfOk.takeReady {rd : Ready}
    (hidle : n.advanceChan = false) (hrd : newReady n.raft n.prevSoft n.prevHard = .ok rd) :
    ConfOk b { n with rd := rd }.takeReady := by
  refine ⟨⟨h.flag.le_one, h.flag.clear⟩, fun hout => ?_⟩
  obtain ⟨-, -, -, -, -, hlog⟩ := hwf.takeReady_readyLog hidle hrd hout
  rw [hlog]
  exact prefix_rfl

/-- An `Advance` does not change a log that has the entries to be saved. -/
lemma ConfOk.takeAdvance {n' : Node}
    (hchan : n.advanceChan = true) (ha : n.takeAdvance = .ok n') : n'.ConfOk b := by
  obtain ⟨l', hl', heq⟩ := hwf.takeAdvance_eq hchan
  rw [heq] at ha
  cases ha
  have habs : l'.abs = n.raft.raftLog.abs := by
    rcases hl'.abs with habs | ⟨hprev, -, -, habs⟩
    · exact habs
    · obtain ⟨rest, hrest⟩ := h.saved hprev
      rw [habs, ← hrest, drop_left]
  refine ⟨⟨?_, ?_⟩, fun hf => (nomatch hf)⟩
  · rw [habs]
    exact h.flag.le_one
  · rw [habs]
    exact h.flag.clear

/-- Applying a membership change that was delivered leaves none pending. -/
lemma ConfOk.applyConfChange {index : ℕ} {rd : Ready}
    (cc : ConfChange) (hrd : n.advanceChan → rd = n.rd)
    (hdel : ∃ e ∈ n.delivered, e.index = index ∧ e.type = .confChange) (hb : b < index) :
    ConfOk (max b index) { n with rd := rd, raft := n.raft.applyConfChange cc } := by
  obtain ⟨e, he, rfl, htype⟩ := hdel
  have hlog := (n.raft.applyConfChange_frame cc).raftLog
  have hmem : e ∈ n.raft.raftLog.abs := by
    rw [hwf.delivered] at he
    exact mem_of_mem_take he
  have hlt := confsBeyond_lt hmem htype hb
  have hle := h.flag.le_one
  have hzero : confsBeyond (max b e.index) (n.raft.applyConfChange cc).raftLog.abs = 0 := by
    rw [hlog, max_eq_right hb.le]
    omega
  refine ⟨⟨hzero.trans_le (Nat.zero_le _), fun _ => hzero⟩, fun hprev => ?_⟩
  cases hrd (hwf.advanceChan_of_prev hprev)
  have hready : readyLog { n with raft := n.raft.applyConfChange cc } = n.readyLog := by
    unfold readyLog readyStart
    rw [hlog]
  rw [hready]
  rw [hlog]
  exact h.saved hprev

/-- A leader reacts to a message and is still leader of its term. -/
lemma ConfOk.react {m : Message} {r : Raft} {rd : Ready}
    (hm : m.WF) (hrd : n.advanceChan → rd = n.rd) (ha : Raft.Actions m n.raft r)
    (hl : n.raft.state = .leader) (hterm : n.raft.term = r.term) :
    ConfOk b { n with rd := rd, raft := r } := by
  rcases ha.of_leader hm hwf.raft hl h.flag with hlt | ⟨-, -, hok, hpre⟩
  · omega
  · refine ⟨hok, fun hprev => ?_⟩
    cases hrd (hwf.advanceChan_of_prev hprev)
    have hready : readyLog { n with raft := r } = n.readyLog := by
      unfold readyLog readyStart
      rw [(ha.logWF hwf.raft hm).2.storage]
    rw [hready]
    exact (h.saved hprev).trans hpre

end Node

namespace ClusterConfig

variable {c : ClusterConfig} {s s' : Cluster} {ev : Event}

/-- What `confSafe` says of one node. -/
lemma confSafe_node (hsafe : c.confSafe s ev = true) (hstep : c.step s ev = .ok s') {i : ℕ}
    {n n' : Node} (hn : s.nodes.lookup i = some n) (hn' : s'.nodes.lookup i = some n')
    (hl : n'.raft.state = .leader) (hnew : ¬ (n.raft.state = .leader ∧
      n.raft.term = n'.raft.term)) : n'.ConfOk (s'.confIndex i) := by
  unfold confSafe at hsafe
  rw [Bool.and_eq_true] at hsafe
  have hclear := of_decide_eq_true (electsOnly_node hsafe.2 hstep hn hn' hl hnew)
  exact ⟨⟨by omega, fun _ => hclear.1⟩, hclear.2⟩

/-- A node without a changed log: all that an event can do to the other nodes. -/
lemma confOk_insert {i : ℕ} {n' : Node} {nodes : AList fun _ : ℕ => Node}
    (h : ∀ j n, nodes.lookup j = some n → n.raft.state = .leader → n.ConfOk (s.confIndex j))
    (hn' : n'.raft.state = .leader → n'.ConfOk (s.confIndex i)) :
    ∀ j n, (nodes.insert i n').lookup j = some n → n.raft.state = .leader →
      n.ConfOk (s.confIndex j) :=
  Cluster.forall_insert (P := fun j n => n.raft.state = .leader → n.ConfOk (s.confIndex j)) h hn'

/-- **An event keeps the flags in step with the logs**, if no node becomes leader with a
membership change pending. -/
lemma confOk_step (hwf : s.WF) (hsane : s.Sane) (hsafe : c.confSafe s ev = true)
    (hstep : c.step s ev = .ok s') (h : s.ConfOk) : s'.ConfOk := by
  have hnew := @confSafe_node c s s' ev hsafe hstep
  cases step_change hsane s' hstep with
  | skip => exact h
  | idle i n rd hn hrd =>
    refine confOk_insert h fun hl => ⟨⟨(h i n hn hl).flag.le_one, (h i n hn hl).flag.clear⟩,
      fun hprev => ?_⟩
    cases hrd ((hwf.nodes i n hn).advanceChan_of_prev hprev)
    exact (h i n hn hl).saved hprev
  | react i n m rd r hn hrd hm ha =>
    refine confOk_insert h fun hl => ?_
    by_cases hold : n.raft.state = .leader ∧ n.raft.term = r.term
    · exact (h i n hn hold.1).react (hwf.nodes i n hn) (wf_of_given hwf (given_of_event hm))
        hrd ha hold.1 hold.2
    · exact hnew hn (AList.lookup_insert _) hl hold
  | ready i n rd hn hidle hrd =>
    exact confOk_insert h fun hl => (h i n hn hl).takeReady (hwf.nodes i n hn) hidle hrd
  | advance i n n' hn hout ha =>
    refine confOk_insert h fun hl => ?_
    have hstate : n'.raft.state = n.raft.state := by
      obtain ⟨l, rfl⟩ := Node.takeAdvance_ok ha
      rfl
    exact (h i n hn (hstate ▸ hl)).takeAdvance (hwf.nodes i n hn) hout ha
  | conf i index cc n rd _ hn hrd hmay =>
    unfold Cluster.mayApply at hmay
    rw [hn, Bool.and_eq_true, any_eq_true, decide_eq_true_eq] at hmay
    obtain ⟨⟨e, he, hidx⟩, hlt⟩ := hmay
    rw [decide_eq_true_eq] at hidx
    intro j nj hj hl
    rcases eq_or_ne j i with rfl | hne
    · rw [AList.lookup_insert] at hj
      cases hj
      have hok := (h j n hn ((n.raft.applyConfChange_frame cc).leader hl)).applyConfChange
        (hwf.nodes j n hn) cc hrd ⟨e, he, hidx⟩ hlt
      rw [← Cluster.confIndex_append_self] at hok
      exact hok
    · rw [AList.lookup_insert_ne hne] at hj
      have hok := h j nj hj hl
      rw [← Cluster.confIndex_append_ne s hne index] at hok
      exact hok
  | restart i applied rand n n' hev =>
    rw [hev] at hsafe
    simp [confSafe, Event.isRestart] at hsafe

end ClusterConfig

/-- **At most one pending membership change**, in every state of a run in which no node is
restarted and no node becomes leader with a membership change in its log that it has not
applied.

**Proof sketch.** The flag `pendingConf` of a leader is clear only when its log has no
membership change beyond the last applied one, and at most one is there in any case. A new
leader has none by assumption; an append adds one only when the flag is clear, and sets it;
a change that is applied was delivered, so it is the one in the log. -/
theorem one_pending_conf (c : ClusterConfig) (evs : List Event)
    (hsafe : c.execAlong c.confSafe evs = true) (s : Cluster) (hs : c.exec evs = .ok s)
    (i : ℕ) (n : Node) (hn : s.nodes.lookup i = some n) (hl : n.raft.state = .leader) :
    s.pendingConfs i n ≤ 1 := by
  obtain ⟨s₀, hbegun, hexec, halong⟩ := c.exec_eq
  rw [hexec] at hs
  rw [halong] at hsafe
  have hbegin : s₀.ConfOk := by
    intro j nj hj hlj
    have := (hbegun.nodes j nj hj).2.state
    simp [hlj] at this
  have hrun := ClusterConfig.along_invariant (P := fun s => s.WF ∧ s.ConfOk) hsafe hbegun.sane
    ⟨hbegun.wf, hbegin⟩ fun s₁ ev s₂ hok hsane hstep h =>
      ⟨(ClusterConfig.step_change hsane s₂ hstep).wf h.1,
        ClusterConfig.confOk_step h.1 hsane hok hstep h.2⟩
  obtain ⟨-, -, hconf⟩ := hrun s hs
  exact (confsBeyond_mono (le_max_right _ _) _).trans (hconf i n hn hl).flag.le_one

/-- A leader of two nodes refuses a second membership change while the first is pending. -/
theorem one_pending_conf_refused : ∃ s n,
    FixedCluster.pair.exec (electNode1 ++
      [.proposeConfChange 1 [1], .proposeConfChange 1 [2]]) = .ok s ∧
    s.nodes.lookup 1 = some n ∧ n.raft.state = .leader ∧ n.raft.raftLog.abs.length = 3 ∧
    s.pendingConfs 1 n ≤ 1 := by
  refine ⟨_, _, rfl, rfl, rfl, rfl, ?_⟩
  exact one_pending_conf FixedCluster.pair.toClusterConfig
    (electNode1 ++ [.proposeConfChange 1 [1], .proposeConfChange 1 [2]]) (by decide) _ (by rfl)
    1 _ (by rfl) (by rfl)

/-- After `electNode1`, node `1` appends a membership change and sends it to node `2`, which
then is elected in term `3` and appends another one. -/
def inheritConf : List Event :=
  [.proposeConfChange 1 [1], .ready 1, .advance 1,
    .deliver { type := .msgApp, toID := 2, fromID := 1, term := 2,
               entries := [{ term := 2, index := 1 },
                 { term := 2, index := 2, type := .confChange, data := [1] }] },
    .campaign 2, .ready 2, .advance 2,
    .deliver { type := .msgVote, toID := 1, fromID := 2, term := 3, logTerm := 2,
               logIndex := 2 },
    .ready 1, .advance 1,
    .deliver { type := .msgVoteResp, toID := 2, fromID := 1, term := 3 },
    .proposeConfChange 2 [2]]

/-- **A leader with two pending membership changes.** `becomeLeader` leaves the flag
`pendingConf` clear although the log of node `2` ends with an uncommitted change. -/
theorem two_pending_confs : ∃ s n,
    FixedCluster.pair.exec (electNode1 ++ inheritConf) = .ok s ∧
    s.nodes.lookup 2 = some n ∧ n.raft.state = .leader ∧ n.raft.raftLog.applyIndex = 0 ∧
    s.confs = [] ∧ s.pendingConfs 2 n = 2 :=
  ⟨_, _, rfl, rfl, rfl, rfl, rfl, rfl⟩

end Yukino.Replica
