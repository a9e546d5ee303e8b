import Yukino.Raft.Safety
import Yukino.Raft.ReadQueue

set_option autoImplicit false

/-!
# The quorum of a read

A read is to be released when the leader and the nodes that have acknowledged its context are a
quorum. `stepLeader` compares the number of acknowledgements alone with `quorum()`, and the leader
does not acknowledge. So a read waits for one more node, and in a cluster of two nodes for ever.
An acknowledgement of a later read releases the earlier ones as well.

## Main definitions

* `Raft.Answered` — the leader answers a read.
* `Raft.ReleasesAtQuorum` — an acknowledgement releases the first read if and only if the leader and
  those that have acknowledged the read are a quorum.
* `Raft.quorumAgrees` — the acknowledgements for which the two numbers agree.

## Main results

* `Raft.handleHeartbeatResp_first` — when the first read is answered.
* `releases_iff_agrees` — the read is released at the quorum if and only if the numbers agree.
* `read_without_leader` — in a cluster of two nodes the acknowledgement of the other node does not
  release a read.
-/

namespace Yukino.Replica

open Outcome List

lemma ReadOnly.recvAck_queue (ro : ReadOnly) (ctx : Bytes) (fromID : ℕ) :
    (ro.recvAck ctx fromID).1.readIndexQueue = ro.readIndexQueue := by
  unfold recvAck
  split <;> rfl

namespace Raft

/-! ## Answers to reads -/

/-- The leader answers the read of `rs`: to its application, or to the node that has passed the
read on. -/
def Answered (r r' : Raft) (rs : ReadIndexStatus) : Prop :=
  if rs.req.fromID = noneID ∨ rs.req.fromID = r.id then
    ∃ states e es, r'.readStates = r.readStates ++ states ∧ rs.req.entries = e :: es ∧
      { index := rs.index, requestCtx := e.data } ∈ states
  else ∃ ms, r'.msgs = r.msgs ++ ms ∧ r.stamp (readAnswer rs) ∈ ms

/-- The acknowledgement releases the first read `rs` of the queue if and only if it is one of its
context, and the leader and all nodes that have acknowledged the context are a quorum. -/
def ReleasesAtQuorum (r : Raft) (m : Message) (ctx : Bytes) (rs : ReadIndexStatus) : Prop :=
  (∃ r', r.step m = .ok r' ∧ r.Answered r' rs) ↔
    m.context = ctx ∧ r.quorum ≤ (insert r.id (insert m.fromID rs.acks)).card

/-- For an acknowledgement of the first read, those that have acknowledged it are not one less
than a quorum, or the leader is among them. An acknowledgement of a later read does not reach the
quorum. -/
def quorumAgrees (r : Raft) (m : Message) (ctx : Bytes) (rs : ReadIndexStatus) : Bool :=
  if m.context = ctx then
    (insert m.fromID rs.acks).card + 1 ≠ r.quorum || r.id ∈ insert m.fromID rs.acks
  else
    m.context ∉ r.readOnly.readIndexQueue ||
      (r.readOnly.pendingReadIndex.lookup m.context).all fun later =>
        (insert m.fromID later.acks).card < r.quorum

variable {r r' r₁ r₂ : Raft} {rs rs' : ReadIndexStatus}

/-- Outputs are added. -/
def Emits (r r' : Raft) : Prop :=
  r'.id = r.id ∧ r'.term = r.term ∧ (∃ states, r'.readStates = r.readStates ++ states) ∧
    ∃ ms, r'.msgs = r.msgs ++ ms

lemma stamp_congr (hid : r'.id = r.id) (hterm : r'.term = r.term) (m : Message) :
    r'.stamp m = r.stamp m := by
  unfold stamp
  rw [hid, hterm]

lemma Emits.refl (r : Raft) : Emits r r :=
  ⟨rfl, rfl, ⟨[], (append_nil _).symm⟩, [], (append_nil _).symm⟩

/-- A read that is answered between other outputs. -/
lemma Answered.between (hbefore : Emits r r₁) (h : r₁.Answered r₂ rs) (hafter : Emits r₂ r') :
    r.Answered r' rs := by
  obtain ⟨hid, hterm, ⟨states₁, hstates₁⟩, ms₁, hms₁⟩ := hbefore
  obtain ⟨-, -, ⟨states', hstates'⟩, ms', hms'⟩ := hafter
  unfold Answered at h ⊢
  rw [hid] at h
  split_ifs at h ⊢
  · obtain ⟨states, e, es, hstates, he, hmem⟩ := h
    refine ⟨states₁ ++ (states ++ states'), e, es, ?_, he, by simp [hmem]⟩
    simp [hstates', hstates, hstates₁]
  · obtain ⟨ms, hms, hmem⟩ := h
    refine ⟨ms₁ ++ (ms ++ ms'), ?_, by simp [← stamp_congr hid hterm, hmem]⟩
    simp [hms', hms, hms₁]

/-- An answer does not depend on the acknowledgements. -/
lemma Answered.congr (h : r.Answered r' rs) (hreq : rs'.req = rs.req)
    (hindex : rs'.index = rs.index) : r.Answered r' rs' := by
  unfold Answered readAnswer at h ⊢
  rw [hreq, hindex]
  exact h

/-- A node without new outputs has answered nothing. -/
lemma not_answered (hstates : r'.readStates = r.readStates) (hmsgs : r'.msgs = r.msgs) :
    ¬ r.Answered r' rs := by
  unfold Answered
  split_ifs
  · rintro ⟨states, e, es, h, -, hmem⟩
    rw [hstates, self_eq_append_right] at h
    rw [h] at hmem
    cases hmem
  · rintro ⟨ms, h, hmem⟩
    rw [hmsgs, self_eq_append_right] at h
    rw [h] at hmem
    cases hmem

lemma releaseRead_answered {ctx : Bytes} (hfor : rs.For ctx) :
    ∃ r', r.releaseRead rs = .ok r' ∧ Emits r r' ∧ r.Answered r' rs := by
  obtain ⟨e, es, he, -⟩ := hfor
  unfold releaseRead Answered
  by_cases hlocal : rs.req.fromID = noneID ∨ rs.req.fromID = r.id
  · simp only [if_pos hlocal, he]
    exact ⟨_, rfl, ⟨rfl, rfl, ⟨_, rfl⟩, [], (append_nil _).symm⟩, _, e, es, rfl, rfl,
      mem_singleton_self _⟩
  · simp only [if_neg hlocal]
    exact ⟨_, rfl, ⟨rfl, rfl, ⟨[], (append_nil _).symm⟩, _, rfl⟩, _, rfl, mem_singleton_self _⟩

/-- All reads of a list are answered. -/
lemma releaseReads_answered {rss : List ReadIndexStatus}
    (hfor : ∀ rs ∈ rss, ∃ ctx, rs.For ctx) (r : Raft) :
    ∃ r', rss.foldlM releaseRead r = .ok r' ∧ Emits r r' ∧ ∀ rs ∈ rss, r.Answered r' rs := by
  induction rss generalizing r with
  | nil => exact ⟨r, rfl, .refl r, fun rs hrs => by cases hrs⟩
  | cons rs rss ih =>
    obtain ⟨ctx, hctx⟩ := hfor rs mem_cons_self
    obtain ⟨r₁, hr₁, hemits₁, hanswered₁⟩ := releaseRead_answered (r := r) hctx
    obtain ⟨r', hr', hemits', hanswered'⟩ := ih (forall_mem_cons.1 hfor).2 r₁
    refine ⟨r', ?_, ?_, fun rs' hrs' => ?_⟩
    · rw [foldlM_cons, hr₁]
      exact hr'
    · obtain ⟨hid₁, hterm₁, ⟨states₁, hstates₁⟩, ms₁, hms₁⟩ := hemits₁
      obtain ⟨hid', hterm', ⟨states', hstates'⟩, ms', hms'⟩ := hemits'
      refine ⟨hid'.trans hid₁, hterm'.trans hterm₁, ⟨states₁ ++ states', ?_⟩, ms₁ ++ ms', ?_⟩
      · rw [hstates', hstates₁, append_assoc]
      · rw [hms', hms₁, append_assoc]
    · rcases mem_cons.1 hrs' with rfl | hrs'
      · exact .between (.refl r) hanswered₁ hemits'
      · exact .between hemits₁ (hanswered' rs' hrs') (.refl r')

/-! ## The first read of the queue -/

variable {m : Message} {ctx : Bytes} {rest : List Bytes}

/-- The acknowledgements of a pending read. -/
lemma recvAck_of_lookup {ro : ReadOnly} (h : ro.pendingReadIndex.lookup m.context = some rs) :
    (ro.recvAck m.context m.fromID).2 = insert m.fromID rs.acks := by
  unfold ReadOnly.recvAck
  rw [h]

/-- `recvAck` changes nothing but acknowledgements. -/
lemma lookup_of_recvAck {ro : ReadOnly} (h : ro.pendingReadIndex.lookup ctx = some rs) :
    ∃ rs', (ro.recvAck m.context m.fromID).1.pendingReadIndex.lookup ctx = some rs' ∧
      rs'.req = rs.req ∧ rs'.index = rs.index := by
  unfold ReadOnly.recvAck
  split
  · exact ⟨rs, h, rfl, rfl⟩
  · rename_i later hlater
    rcases eq_or_ne ctx m.context with rfl | hne
    · rw [h] at hlater
      cases hlater
      exact ⟨_, AList.lookup_insert _, rfl, rfl⟩
    · exact ⟨rs, (AList.lookup_insert_ne hne).trans h, rfl, rfl⟩

/-- An acknowledgement below the quorum, or of an unknown context, releases nothing. -/
lemma handleHeartbeatResp_below
    (h : (r.readOnly.recvAck m.context m.fromID).2.card < r.quorum ∨
      m.context ∉ r.readOnly.readIndexQueue) (hwf : r.readOnly.WF)
    (hstep : r.handleHeartbeatResp m = .ok r') : ¬ r.Answered r' rs := by
  rcases handleHeartbeatResp_ensures r m _ hstep with rfl | rfl |
    ⟨hq, ro, rss, hadv, states, ms, rfl, hstates, hms⟩
  · exact not_answered rfl rfl
  · exact not_answered rfl rfl
  · have hout := h.resolve_left (Nat.not_lt.2 hq)
    rcases (hwf.recvAck m.context m.fromID).advance_returns m.context with ⟨-, heq⟩ |
      ⟨pre, rest, rss', ro', hqueue, -⟩
    · rw [heq] at hadv
      cases hadv
      have hstates' : states = [] := eq_nil_iff_forall_not_mem.2 fun x hx => by
        obtain ⟨rs, hrs, -⟩ := hstates x hx
        cases hrs
      have hms' : ms = [] := eq_nil_iff_forall_not_mem.2 fun x hx => by
        obtain ⟨rs, hrs, -⟩ := hms x hx
        cases hrs
      exact not_answered (by simp [hstates']) (by simp [hms'])
    · rw [ReadOnly.recvAck_queue] at hqueue
      exact absurd (by rw [hqueue]; simp) hout

/-- **A quorum of acknowledgements releases the first read.** -/
lemma handleHeartbeatResp_first (hwf : r.readOnly.WF)
    (hqueue : r.readOnly.readIndexQueue = ctx :: rest)
    (hrs : r.readOnly.pendingReadIndex.lookup ctx = some rs)
    (hq : r.quorum ≤ (r.readOnly.recvAck m.context m.fromID).2.card)
    (hmem : m.context ∈ r.readOnly.readIndexQueue) :
    ∃ r', r.handleHeartbeatResp m = .ok r' ∧ r.Answered r' rs := by
  have hack := hwf.recvAck m.context m.fromID
  rcases hack.advance_returns m.context with ⟨hout, -⟩ | ⟨pre, rest', rss, ro', hcut, hst, hadv, -⟩
  · rw [ReadOnly.recvAck_queue] at hout
    exact absurd hmem hout
  rw [ReadOnly.recvAck_queue, hqueue] at hcut
  -- the first read is among those up to the context
  have hfirst : ctx ∈ pre ++ [m.context] := by
    cases pre with
    | nil =>
      cases hcut
      exact mem_singleton_self _
    | cons x pre =>
      cases hcut
      exact mem_cons_self
  have hfor : ∀ rs' ∈ rss, ∃ x, rs'.For x := by
    intro rs' hrs'
    obtain ⟨x, hx, hlook⟩ := hst.exists_mem hrs'
    have hxq : x ∈ (r.readOnly.recvAck m.context m.fromID).1.readIndexQueue := by
      rw [ReadOnly.recvAck_queue, hqueue, hcut, append_cons]
      exact mem_append_left _ hx
    obtain ⟨rs₁, hrs₁, hfor₁⟩ := hack.pending x hxq
    rw [hlook] at hrs₁
    cases hrs₁
    exact ⟨x, hfor₁⟩
  obtain ⟨rs', hrs', hreq, hindex⟩ := lookup_of_recvAck (m := m) hrs
  have hmem' : rs' ∈ rss := ReadOnly.Statuses.mem_of_lookup hst hfirst hrs'
  obtain ⟨r', hr', -, hanswered⟩ := releaseReads_answered hfor { r with readOnly := ro' }
  refine ⟨r', ?_, ?_⟩
  · unfold handleHeartbeatResp
    rw [if_neg (by rw [hqueue]; simp)]
    dsimp only
    split
    · rename_i hlt
      exact absurd hlt (Nat.not_lt.2 hq)
    · rw [hadv]
      exact hr'
  · exact (hanswered rs' hmem').congr hreq.symm hindex.symm

/-- `Step` gives a current acknowledgement of a peer to `recvAck`. -/
lemma step_heartbeatResp (hsane : r.Sane) (hl : r.state = .leader)
    (ht : m.type = .msgHeartbeatResp) (hcur : m.term = r.term) (hfrom : m.fromID ∈ r.prs) :
    r.step m = r.handleHeartbeatResp m := by
  have htype : r.stepType m = r.handleHeartbeatResp m := by
    obtain ⟨pr, hpr⟩ := Option.isSome_iff_exists.1 (AList.lookup_isSome.2 hfrom)
    unfold stepType stepLeader
    rw [ht, hsane.stepFunc, hl]
    dsimp only [stepFuncOf]
    rw [hpr]
  unfold step
  rw [hcur, if_neg (Nat.lt_irrefl _), if_neg (Nat.lt_irrefl _), htype]
  exact ite_self _

variable (hsane : r.Sane) (hwf : r.readOnly.WF) (hl : r.state = .leader)
  (hqueue : r.readOnly.readIndexQueue = ctx :: rest)
  (hrs : r.readOnly.pendingReadIndex.lookup ctx = some rs)
  (ht : m.type = .msgHeartbeatResp) (hcur : m.term = r.term) (hfrom : m.fromID ∈ r.prs)
include hsane hwf hl hqueue hrs ht hcur hfrom

/-- When the first read is answered. -/
lemma answered_iff :
    (∃ r', r.step m = .ok r' ∧ r.Answered r' rs) ↔
      m.context ∈ r.readOnly.readIndexQueue ∧
        r.quorum ≤ (r.readOnly.recvAck m.context m.fromID).2.card := by
  rw [step_heartbeatResp hsane hl ht hcur hfrom]
  constructor
  · rintro ⟨r', hr', hanswered⟩
    by_contra hnot
    refine handleHeartbeatResp_below ?_ hwf hr' hanswered
    rcases not_and_or.1 hnot with hout | hlt
    · exact .inr hout
    · exact .inl (Nat.not_le.1 hlt)
  · rintro ⟨hmem, hq⟩
    exact handleHeartbeatResp_first hwf hqueue hrs hq hmem

/-- **The read is released at the quorum if and only if the numbers agree.** -/
lemma releasesAtQuorum_iff :
    r.ReleasesAtQuorum m ctx rs ↔ r.quorumAgrees m ctx rs = true := by
  unfold ReleasesAtQuorum quorumAgrees
  rw [answered_iff hsane hwf hl hqueue hrs ht hcur hfrom]
  by_cases hctx : m.context = ctx
  · -- the first read itself: the leader makes the difference
    subst hctx
    have hmem : m.context ∈ r.readOnly.readIndexQueue := by
      rw [hqueue]
      exact mem_cons_self
    rw [recvAck_of_lookup hrs, if_pos rfl, Bool.or_eq_true, decide_eq_true_eq, decide_eq_true_eq]
    by_cases hself : r.id ∈ insert m.fromID rs.acks
    · simp [hmem, hself]
    · rw [Finset.card_insert_of_notMem hself]
      simp only [hmem, hself, true_and, or_false]
      omega
  · rw [if_neg hctx]
    simp only [hctx, false_and, iff_false, not_and, Bool.or_eq_true]
    by_cases hmem : m.context ∈ r.readOnly.readIndexQueue
    · obtain ⟨later, hlater, -⟩ := hwf.pending _ hmem
      simp only [hmem, not_true_eq_false, false_or, forall_const, hlater, Option.all_some,
        decide_eq_true_eq]
      rw [recvAck_of_lookup hlater, Nat.not_le]
    · simp [hmem]

end Raft

/-- The nodes of a run are sane, and their queues of reads are consistent. -/
lemma ClusterConfig.exec_reads {c : ClusterConfig} {evs : List Event} {s : Cluster}
    (hs : c.exec evs = .ok s) : s.Sane ∧ s.ReadWF := by
  obtain ⟨s₀, hstart, hbegun⟩ := c.start_returns
  rw [ClusterConfig.exec_of_start hstart] at hs
  exact ClusterConfig.run_invariant hbegun.sane hbegun.readWF (fun _ _ _ _ _ hc h => hc.readWF h)
    s hs

/-- **When a read is released at the quorum.** The acknowledgement of a peer, in the leader's term,
releases the first read of a leader exactly when the leader and those that have acknowledged the
read are a quorum, if and only if the number of those that have acknowledged it is not one less than
a quorum, and no later read is released. -/
theorem releases_iff_agrees (c : ClusterConfig) (evs : List Event) (s : Cluster)
    (hs : c.exec evs = .ok s) (i : ℕ) (n : Node) (hn : s.nodes.lookup i = some n)
    (hl : n.raft.state = .leader) (ctx : Bytes) (rest : List Bytes) (rs : ReadIndexStatus)
    (hqueue : n.raft.readOnly.readIndexQueue = ctx :: rest)
    (hrs : n.raft.readOnly.pendingReadIndex.lookup ctx = some rs) (m : Message)
    (ht : m.type = .msgHeartbeatResp) (hcur : m.term = n.raft.term)
    (hfrom : m.fromID ∈ n.raft.prs) :
    n.raft.ReleasesAtQuorum m ctx rs ↔ n.raft.quorumAgrees m ctx rs = true := by
  obtain ⟨hsane, hreads⟩ := ClusterConfig.exec_reads hs
  exact Raft.releasesAtQuorum_iff (hsane i n hn).2 (hreads.nodes i n hn).queue hl hqueue hrs ht
    hcur hfrom

/-! ## Two and three nodes -/

/-- The leader of term `2`, who has committed an entry of the term, has the one pending read `a`,
which `m` acknowledges. -/
structure Cluster.Awaits (s : Cluster) (m : Message) (n : Node) (rs : ReadIndexStatus) :
    Prop where
  net : m ∈ s.net
  node : s.nodes.lookup 1 = some n
  leader : n.raft.state = .leader
  term : n.raft.term = 2
  peer : m.fromID ∈ n.raft.prs
  committed : n.raft.raftLog.term n.raft.raftLog.commitIndex = .ok 2
  queue : n.raft.readOnly.readIndexQueue = [[97]]
  status : n.raft.readOnly.pendingReadIndex.lookup [97] = some rs

instance Cluster.decidableAwaits {s : Cluster} {m : Message} {P : Node → ReadIndexStatus → Prop}
    [∀ n rs, Decidable (P n rs)] : Decidable (∃ n rs, s.Awaits m n rs ∧ P n rs) :=
  decidable_of_iff (m ∈ s.net ∧ ∃ n, s.nodes.lookup 1 = some n ∧ (n.raft.state = .leader ∧
    n.raft.term = 2 ∧ m.fromID ∈ n.raft.prs ∧
    n.raft.raftLog.term n.raft.raftLog.commitIndex = .ok 2 ∧
    n.raft.readOnly.readIndexQueue = [[97]]) ∧
    ∃ rs, n.raft.readOnly.pendingReadIndex.lookup [97] = some rs ∧ P n rs) <| by
    constructor
    · rintro ⟨hnet, n, hn, ⟨hl, hterm, hpeer, hcommitted, hqueue⟩, rs, hrs, hP⟩
      exact ⟨n, rs, ⟨hnet, hn, hl, hterm, hpeer, hcommitted, hqueue, hrs⟩, hP⟩
    · rintro ⟨n, rs, h, hP⟩
      exact ⟨h.net, n, h.node, ⟨h.leader, h.term, h.peer, h.committed, h.queue⟩, rs, h.status, hP⟩

/-- The acknowledgement of the read `a` by a node. -/
def ackOf (i : ℕ) : Message :=
  { type := .msgHeartbeatResp, toID := 1, fromID := i, term := 2, context := [97] }

/-- Nodes `2` and `3` confirm the read that leader `1` steps. -/
def confirmRead (term : ℕ) (ctx : Bytes) (commit₂ commit₃ : ℕ) : List Event :=
  [.readIndex 1 ctx, .ready 1, .advance 1,
    .deliver { type := .msgHeartbeat, toID := 2, fromID := 1, term := term,
               commitIndex := commit₂, context := ctx },
    .deliver { type := .msgHeartbeat, toID := 3, fromID := 1, term := term,
               commitIndex := commit₃, context := ctx },
    .ready 2, .advance 2, .ready 3, .advance 3,
    .deliver { type := .msgHeartbeatResp, toID := 1, fromID := 2, term := term, context := ctx },
    .deliver { type := .msgHeartbeatResp, toID := 1, fromID := 3, term := term, context := ctx }]

/-- Among three nodes the read is released by the second acknowledgement. -/
theorem releases_iff_agrees_second : ∃ s n rs,
    FixedCluster.trio.exec
      (commitFirst ++ (confirmRead 2 [97] 1 0).dropLast) = .ok s ∧
    s.Awaits (ackOf 3) n rs ∧ n.raft.ReleasesAtQuorum (ackOf 3) [97] rs ∧
    n.raft.quorum ≤ (insert n.raft.id (insert 3 rs.acks)).card := by
  obtain ⟨s, hs, n, rs, h, hagrees, hquorum⟩ :
      ∃ s, FixedCluster.trio.exec (commitFirst ++ (confirmRead 2 [97] 1 0).dropLast) = .ok s ∧
        ∃ n rs, s.Awaits (ackOf 3) n rs ∧ n.raft.quorumAgrees (ackOf 3) [97] rs = true ∧
          n.raft.quorum ≤ (insert n.raft.id (insert 3 rs.acks)).card := by decide +kernel
  exact ⟨s, n, rs, hs, h, (releases_iff_agrees _ _ s hs 1 n h.node h.leader [97] [] rs h.queue
    h.status (ackOf 3) rfl h.term.symm h.peer).2 hagrees, hquorum⟩

/-- Node `2` of two acknowledges the read `a`. -/
def acknowledged : List Event :=
  commitFirst ++ [.readIndex 1 [97], .ready 1, .advance 1,
    .deliver { type := .msgHeartbeat, toID := 2, fromID := 1, term := 2, commitIndex := 1,
               context := [97] },
    .ready 2, .advance 2]

/-- **A read without the leader.** The leader and the other node are all nodes there are, and the
acknowledgement does not release the read. -/
theorem read_without_leader : ∃ s n rs,
    FixedCluster.pair.exec acknowledged = .ok s ∧
    s.Awaits (ackOf 2) n rs ∧ n.raft.quorum = 2 ∧
    insert n.raft.id (insert (ackOf 2).fromID rs.acks) = {1, 2} ∧
    ¬ n.raft.ReleasesAtQuorum (ackOf 2) [97] rs := by
  obtain ⟨s, hs, n, rs, h, hquorum, hnodes, hagrees⟩ :
      ∃ s, FixedCluster.pair.exec acknowledged = .ok s ∧ ∃ n rs, s.Awaits (ackOf 2) n rs ∧
        n.raft.quorum = 2 ∧ insert n.raft.id (insert (ackOf 2).fromID rs.acks) = {1, 2} ∧
        n.raft.quorumAgrees (ackOf 2) [97] rs = false := by decide +kernel
  obtain ⟨hsane, hreads⟩ := ClusterConfig.exec_reads hs
  refine ⟨s, n, rs, hs, h, hquorum, hnodes, fun hreleases => ?_⟩
  rw [Raft.releasesAtQuorum_iff (hsane 1 n h.node).2 (hreads.nodes 1 n h.node).queue h.leader
    h.queue h.status rfl h.term.symm h.peer, hagrees] at hreleases
  cases hreleases

end Yukino.Replica
