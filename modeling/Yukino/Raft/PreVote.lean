import Yukino.Raft.Safety

set_option autoImplicit false

/-!
# Votes before the election

A node asks with `MsgPreVote` whether it would be elected, before it takes a new term. It should get
the votes that `MsgVote` would get. `campaign` writes the next term into the question, but `send`
overwrites it with the node's own term. So a node of the same term that has voted for another node
refuses, although it would vote in the next term, and a node of the next term does not answer at
all.

## Main definitions

* `Raft.Asks` — the request that `campaign` sends to a node.
* `Raft.Grants` — the answer to a request is a vote.
* `Raft.PreVotePredicts` — both kinds of requests get the same answer, and the question changes
  nothing.
* `Raft.votesAgree` — the states in which the two answers agree.

## Main results

* `Raft.campaign_asks` — the requests of a campaign.
* `Raft.grants_preVote`, `Raft.grants_vote` — when they are granted.
* `preVotePredicts_iff` — the question predicts the vote if and only if the states agree.
* `preVote_refused` — after the death of a leader the question is refused.

## Design

The term of the request is the next one, so the results are about terms below `2^64 - 1`.
-/

namespace Yukino.Replica

open Outcome List

namespace Raft

/-! ## Requests -/

/-- The campaign of the node sends the request `m` to node `j`. -/
def Asks (r : Raft) (typ : CampaignType) (j : ℕ) (m : Message) : Prop :=
  ∃ r' ms, r.campaign typ = .ok r' ∧ r'.msgs = r.msgs ++ ms ∧ m ∈ ms ∧ m.toID = j

/-- The answer to a request of this type. -/
def answerType : MessageType → MessageType
  | .msgVote => .msgVoteResp
  | _ => .msgPreVoteResp

/-- The node answers the request with its vote. -/
def Grants (r : Raft) (m : Message) : Prop :=
  ∃ r' x, r.step m = .ok r' ∧ r'.msgs = r.msgs ++ [x] ∧ x.type = answerType m.type ∧
    x.toID = m.fromID ∧ x.reject = false

/-- Node `p` grants the `MsgPreVote` of the campaign of `r` if and only if it grants the `MsgVote`,
and no `MsgPreVote` changes its term or its vote. -/
def PreVotePredicts (r p : Raft) : Prop :=
  (∀ m m', r.Asks .preElection p.id m → r.Asks .election p.id m' → (p.Grants m ↔ p.Grants m')) ∧
    ∀ m p', m.type = .msgPreVote → p.step m = .ok p' → p'.term = p.term ∧ p'.vote = p.vote

/-- The log of `r` is not behind that of `p`. -/
def notBehind (r p : Raft) : Bool :=
  match r.raftLog.lastTerm with
  | .error _ => false
  | .ok lastTerm =>
    match p.raftLog.isUpToDate r.raftLog.lastIndex lastTerm with
    | .error _ => false
    | .ok upToDate => upToDate

lemma notBehind_iff {r p : Raft} : r.notBehind p = true ↔ ∃ lastTerm,
    r.raftLog.lastTerm = .ok lastTerm ∧
      p.raftLog.isUpToDate r.raftLog.lastIndex lastTerm = .ok true := by
  unfold notBehind
  cases r.raftLog.lastTerm with
  | error e => simp
  | ok lastTerm =>
    cases hup : p.raftLog.isUpToDate r.raftLog.lastIndex lastTerm with
    | error e => simp [hup]
    | ok upToDate => simp [hup]

/-- The log of `r` is behind, or `p` is not of the same term when it has voted for another node, and
not of the next term when it has not. -/
def votesAgree (r p : Raft) : Bool :=
  !(r.notBehind p && if p.vote = noneID ∨ p.vote = r.id then
      if r.term = 0 then 2 ≤ p.term else p.term = r.term + 1
    else p.term = r.term)

variable {r r' p : Raft} {m : Message}

/-- The requests to the nodes `ids`. -/
def voteRequests (r : Raft) (typ : CampaignType) (term lastTerm : ℕ) (ids : List ℕ) :
    List Message :=
  (ids.filter (· ≠ r.id)).map fun id =>
    r.stamp (r.voteRequest term (campaignMsgType typ) lastTerm id)

/-- A round of the loop of `campaign`. -/
def askOne (typ : CampaignType) (term : ℕ) (r : Raft) (id : ℕ) : Go Raft :=
  if id = r.id then .ok r
  else do
    let lastTerm ← r.raftLog.lastTerm
    .ok (r.send (r.voteRequest term (campaignMsgType typ) lastTerm id))

/-- The loop of `campaign` sends the requests. -/
lemma foldlM_askOne (r : Raft) (typ : CampaignType) (term : ℕ) {lastTerm : ℕ} (ids : List ℕ)
    (h : r.raftLog.lastTerm = .ok lastTerm) :
    ids.foldlM (askOne typ term) r =
      .ok { r with msgs := r.msgs ++ r.voteRequests typ term lastTerm ids } := by
  induction ids generalizing r with
  | nil =>
    rw [voteRequests, filter_nil, map_nil, append_nil]
    rfl
  | cons id ids ih =>
    rw [foldlM_cons, askOne]
    by_cases hid : id = r.id
    · rw [if_pos hid, ok_bind, ih r h, voteRequests, voteRequests,
        filter_cons_of_neg (by simp [hid])]
    · have hnext := ih (r.send (r.voteRequest term (campaignMsgType typ) lastTerm id)) h
      rw [if_neg hid, h, ok_bind, ok_bind, hnext, voteRequests, voteRequests,
        filter_cons_of_pos (by simp [hid]), map_cons, append_cons]
      rfl

/-- A loop that sends something needs the last term. -/
lemma lastTerm_of_askOne {typ : CampaignType} {term j : ℕ} {ids : List ℕ} (hj : j ∈ ids)
    (hne : j ≠ r.id)
    (h : ids.foldlM (askOne typ term) r = .ok r') :
    ∃ lastTerm, r.raftLog.lastTerm = .ok lastTerm := by
  induction ids generalizing r with
  | nil => cases hj
  | cons id ids ih =>
    rw [foldlM_cons, askOne] at h
    by_cases hid : id = r.id
    · rw [if_pos hid] at h
      refine ih ((mem_cons.1 hj).resolve_left ?_) hne h
      rintro rfl
      exact hne hid
    · rw [if_neg hid] at h
      obtain ⟨r₁, h₁, -⟩ := bind_eq_ok.1 h
      obtain ⟨lastTerm, hlast, -⟩ := bind_eq_ok.1 h₁
      exact ⟨lastTerm, hlast⟩

/-- The state in which the requests are sent. -/
def campaigner (r : Raft) : CampaignType → Raft
  | .preElection =>
    { r.asPreCandidate with votes := (∅ : AList fun _ : ℕ => Bool).insert r.id true }
  | .election => { r.asCandidate with votes := (∅ : AList fun _ : ℕ => Bool).insert r.id true }

lemma poll_campaigner (typ : CampaignType) (hstate : r.state ≠ .leader) :
    ∃ r₁, becomeCampaigner typ r = .ok r₁ ∧ r₁.poll r₁.id true = r.campaigner typ := by
  cases typ with
  | preElection | election => exact ⟨_, if_neg hstate, rfl⟩

/-- A node with another peer does not win by its own vote. -/
lemma quorum_ne_granted (typ : CampaignType) {i j : ℕ} (hi : i ∈ r.prs) (hj : j ∈ r.prs)
    (hne : i ≠ j) : (r.campaigner typ).quorum ≠ (r.campaigner typ).granted := by
  have hgranted : (r.campaigner typ).granted = 1 := by
    cases typ <;> rfl
  have hkeys : (r.campaigner typ).prs.keys.length = r.prs.keys.length := by
    cases typ <;> rfl
  have hlen : 2 ≤ r.prs.keys.length := by
    have hcard : 1 < r.prs.keys.toFinset.card := Finset.one_lt_card.2
      ⟨i, mem_toFinset.2 (AList.mem_keys.2 hi), j,
        mem_toFinset.2 (AList.mem_keys.2 hj), hne⟩
    exact hcard.trans_le (toFinset_card_le _)
  rw [quorum]
  omega

/-- The request to node `j`. -/
def request (r : Raft) (typ : CampaignType) (lastTerm j : ℕ) : Message where
  type := campaignMsgType typ
  toID := j
  fromID := r.id
  term := (r.campaigner typ).term
  logTerm := lastTerm
  logIndex := r.raftLog.lastIndex

lemma stamp_voteRequest (typ : CampaignType) (term lastTerm j : ℕ) :
    (r.campaigner typ).stamp
      ((r.campaigner typ).voteRequest term (campaignMsgType typ) lastTerm j) =
        r.request typ lastTerm j := by
  cases typ <;> rfl

/-- **The request of a campaign**: it has the term in which it is sent. -/
lemma campaign_asks (typ : CampaignType) {j : ℕ} (hstate : r.state ≠ .leader)
    (hself : r.id ∈ r.prs) (hj : j ∈ r.prs) (hne : j ≠ r.id) (m : Message) :
    r.Asks typ j m ↔
      ∃ lastTerm, r.raftLog.lastTerm = .ok lastTerm ∧ m = r.request typ lastTerm j := by
  obtain ⟨r₁, hr₁, hpoll⟩ := poll_campaigner typ hstate
  have hquorum := quorum_ne_granted typ hself hj hne.symm
  have hprs : (r.campaigner typ).prs.keys = r.prs.keys := by
    cases typ <;> rfl
  have hid : (r.campaigner typ).id = r.id := by
    cases typ <;> rfl
  have hlog : (r.campaigner typ).raftLog = r.raftLog := by
    cases typ <;> rfl
  have hmsgs : (r.campaigner typ).msgs = r.msgs := by
    cases typ <;> rfl
  have hwith : ∀ won, campaignWith typ won r =
      r.prs.keys.foldlM (askOne typ (campaignTerm typ r₁)) (r.campaigner typ) := by
    intro won
    unfold campaignWith
    rw [hr₁, ok_bind]
    rw [hpoll, if_neg hquorum, hprs]
    rfl
  obtain ⟨won, hcampaign⟩ : ∃ won, r.campaign typ = campaignWith typ won r := by
    cases typ with
    | preElection | election => exact ⟨_, rfl⟩
  have hkeys : j ∈ r.prs.keys := AList.mem_keys.2 hj
  unfold Asks
  rw [hcampaign, hwith]
  constructor
  · rintro ⟨r', ms, hok, hms, hm, rfl⟩
    obtain ⟨lastTerm, hlast⟩ := lastTerm_of_askOne hkeys (hid ▸ hne) hok
    rw [foldlM_askOne _ _ _ _ hlast] at hok
    cases hok
    refine ⟨lastTerm, hlog ▸ hlast, ?_⟩
    rw [hmsgs, append_cancel_left_eq] at hms
    rw [← hms] at hm
    obtain ⟨id, -, rfl⟩ := mem_map.1 hm
    rw [stamp_voteRequest]
    rfl
  · rintro ⟨lastTerm, hlast, rfl⟩
    refine ⟨_, _, foldlM_askOne _ _ _ _ (hlog ▸ hlast), by rw [hmsgs], ?_, rfl⟩
    refine mem_map.2 ⟨j, mem_filter.2 ⟨hkeys, ?_⟩, stamp_voteRequest _ _ _ _⟩
    rw [hid]
    exact decide_eq_true hne

/-! ## Answers -/

/-- The vote that `handleVote` gives. -/
lemma handleVote_grants (hm : m.type = .msgVote ∨ m.type = .msgPreVote) :
    (∃ r' x, r.handleVote m = .ok r' ∧ r'.msgs = r.msgs ++ [x] ∧ x.type = answerType m.type ∧
      x.toID = m.fromID ∧ x.reject = false) ↔
      r.raftLog.isUpToDate m.logIndex m.logTerm = .ok true ∧
        (r.vote = noneID ∨ m.term > r.term ∨ m.fromID = r.vote) := by
  unfold handleVote
  cases hup : r.raftLog.isUpToDate m.logIndex m.logTerm with
  | error e =>
    constructor
    · rintro ⟨r', x, h, -⟩
      cases h
    · rintro ⟨h, -⟩
      cases h
  | ok upToDate =>
    rw [ok_bind]
    by_cases hgrant : (upToDate && (r.vote = noneID || m.term > r.term || m.fromID = r.vote)) = true
    · rw [if_pos hgrant]
      simp only [Bool.and_eq_true, Bool.or_eq_true, decide_eq_true_eq] at hgrant
      refine iff_of_true ?_ ⟨by rw [hgrant.1], or_assoc.1 hgrant.2⟩
      rcases hm with hm | hm
      · rw [hm]
        exact ⟨_, _, rfl, rfl, rfl, rfl, rfl⟩
      · rw [hm]
        exact ⟨_, _, rfl, rfl, rfl, rfl, rfl⟩
    · rw [if_neg hgrant]
      refine iff_of_false ?_ ?_
      · rintro ⟨r', x, hok, hmsgs, -, -, hreject⟩
        have hx : x.reject = true := by
          split at hok
          all_goals
            cases hok
            rw [send, append_cancel_left_eq] at hmsgs
            cases hmsgs
            rfl
        rw [hx] at hreject
        cases hreject
      · rintro ⟨hok, hvote⟩
        cases hok
        exact hgrant (by simpa [or_assoc] using hvote)

/-- A message of an earlier term is not answered. -/
lemma not_grants_of_lt (hm : m.type = .msgVote ∨ m.type = .msgPreVote) (hpos : m.term ≠ 0)
    (hlt : m.term < p.term) : ¬ p.Grants m := by
  have hstep : p.step m = .ok p := by
    unfold step
    rw [if_neg hpos, if_neg (Nat.not_lt.2 hlt.le), if_pos hlt, if_neg]
    rintro ⟨-, h | h⟩
    all_goals
      rcases hm with hm | hm
      all_goals
        rw [hm] at h
        cases h
  rintro ⟨p', x, hok, hmsgs, -⟩
  rw [hstep] at hok
  cases hok
  rw [self_eq_append_right] at hmsgs
  cases hmsgs

/-- A `MsgPreVote` does not change the term of the node. -/
lemma step_preVote_eq (hm : m.type = .msgPreVote) :
    p.step m = if m.term ≠ 0 ∧ m.term < p.term then .ok p else p.handleVote m := by
  have htype : p.stepType m = p.handleVote m := by
    unfold stepType
    rw [hm]
  have hobserve : p.observeTerm m = p := by
    exact if_neg fun h => h.1 hm
  have hold : ¬ (p.checkQuorum = true ∧ (m.type = .msgHeartbeat ∨ m.type = .msgApp)) := by
    rw [hm]
    rintro ⟨-, h | h⟩
    all_goals cases h
  unfold step
  rw [hobserve, htype, if_neg hold]
  by_cases h0 : m.term = 0
  · rw [if_pos h0, if_neg fun h => h.1 h0]
  · by_cases hlt : m.term < p.term
    · rw [if_neg h0, if_neg (Nat.not_lt.2 hlt.le), if_pos hlt, if_pos ⟨h0, hlt⟩]
    · rw [if_neg h0, if_neg hlt, ite_self, if_neg fun h => hlt h.2]

/-- When a node grants a `MsgPreVote`. -/
lemma grants_preVote (hm : m.type = .msgPreVote) :
    p.Grants m ↔ (m.term = 0 ∨ p.term ≤ m.term) ∧
      p.raftLog.isUpToDate m.logIndex m.logTerm = .ok true ∧
        (p.vote = noneID ∨ m.term > p.term ∨ m.fromID = p.vote) := by
  by_cases hlt : m.term ≠ 0 ∧ m.term < p.term
  · refine iff_of_false (not_grants_of_lt (.inr hm) hlt.1 hlt.2) ?_
    omega
  · unfold Grants
    rw [step_preVote_eq hm, if_neg hlt, handleVote_grants (.inr hm)]
    refine (and_iff_right ?_).symm
    omega

/-- When a node grants a `MsgVote` of a term. -/
lemma grants_vote (hm : m.type = .msgVote) (hpos : m.term ≠ 0) :
    p.Grants m ↔ p.raftLog.isUpToDate m.logIndex m.logTerm = .ok true ∧
      (p.term < m.term ∨ p.term = m.term ∧ (p.vote = noneID ∨ m.fromID = p.vote)) := by
  rcases Nat.lt_trichotomy m.term p.term with hlt | heq | hgt
  · refine iff_of_false (not_grants_of_lt (.inl hm) hpos hlt) ?_
    omega
  · have hstep : p.step m = p.handleVote m := by
      unfold step
      rw [if_neg hpos, if_neg (by omega), if_neg (by omega), stepType, hm]
    unfold Grants
    rw [hstep, handleVote_grants (.inl hm)]
    refine and_congr_right fun _ => ?_
    omega
  · -- the term is adopted, and with it the vote is free
    have hstep : p.step m = (p.becomeFollower m.term noneID).handleVote m := by
      unfold step observeTerm
      rw [if_neg hpos, if_pos hgt, stepType, hm]
      rfl
    have hvote : (p.becomeFollower m.term noneID).vote = noneID :=
      if_pos (Nat.ne_of_lt hgt)
    unfold Grants
    rw [hstep]
    refine (handleVote_grants (r := p.becomeFollower m.term noneID) (.inl hm)).trans ?_
    refine and_congr_right fun _ => iff_of_true (.inl hvote) (.inl hgt)

/-- The question changes neither the term nor the vote. -/
lemma step_preVote (hm : m.type = .msgPreVote) (hstep : p.step m = .ok r') :
    r'.term = p.term ∧ r'.vote = p.vote := by
  rw [step_preVote_eq hm] at hstep
  split_ifs at hstep
  · cases hstep
    exact ⟨rfl, rfl⟩
  · obtain ⟨u, -, ⟨-, -, ht, -⟩ | rfl | rfl | rfl⟩ := handleVote_ensures p m _ hstep
    · simp [hm] at ht
    all_goals exact ⟨rfl, rfl⟩

end Raft

/-- **When the question predicts the vote.** The `MsgPreVote` and the `MsgVote` of a node that may
campaign get the same answer of a peer if and only if the states agree.

**Proof sketch.** The question has the term of the node, the request the next one. Up to the log,
the question is granted by a node of an earlier term, and by one of the same term that has not voted
for another node; the request is granted by a node of an earlier or the same term, and by one of the
next term that has not voted for another node. -/
theorem preVotePredicts_iff (r p : Raft) (hstate : r.state ≠ .leader) (hself : r.id ∈ r.prs)
    (hpeer : p.id ∈ r.prs) (hne : p.id ≠ r.id) :
    r.PreVotePredicts p ↔ r.votesAgree p = true := by
  have hasks := fun typ m => Raft.campaign_asks typ hstate hself hpeer hne m
  unfold Raft.PreVotePredicts Raft.votesAgree Raft.notBehind
  simp only [hasks]
  rw [and_iff_left fun m p' hm hstep => Raft.step_preVote hm hstep]
  cases hlast : r.raftLog.lastTerm with
  | error e => simp
  | ok lastTerm =>
    have hpre : p.Grants (r.request .preElection lastTerm p.id) ↔ (r.term = 0 ∨ p.term ≤ r.term) ∧
        p.raftLog.isUpToDate r.raftLog.lastIndex lastTerm = .ok true ∧
          (p.vote = noneID ∨ r.term > p.term ∨ r.id = p.vote) := Raft.grants_preVote rfl
    have hterm : (r.request .election lastTerm p.id).term = r.term + 1 := Raft.asCandidate_term
    have hvote : p.Grants (r.request .election lastTerm p.id) ↔
        p.raftLog.isUpToDate r.raftLog.lastIndex lastTerm = .ok true ∧
          (p.term < r.term + 1 ∨ p.term = r.term + 1 ∧ (p.vote = noneID ∨ r.id = p.vote)) := by
      rw [Raft.grants_vote rfl (by rw [hterm]; exact Nat.succ_ne_zero _), hterm]
      rfl
    have hboth : (∀ m m', (∃ t, (.ok lastTerm : Go ℕ) = .ok t ∧
        m = r.request .preElection t p.id) → (∃ t, (.ok lastTerm : Go ℕ) = .ok t ∧
        m' = r.request .election t p.id) → (p.Grants m ↔ p.Grants m')) ↔
        (p.Grants (r.request .preElection lastTerm p.id) ↔
          p.Grants (r.request .election lastTerm p.id)) := by
      constructor
      · exact fun h => h _ _ ⟨_, rfl, rfl⟩ ⟨_, rfl, rfl⟩
      · rintro h m m' ⟨t, ht, rfl⟩ ⟨t', ht', rfl⟩
        cases ht
        cases ht'
        exact h
    rw [hboth, hpre, hvote]
    dsimp only
    cases p.raftLog.isUpToDate r.raftLog.lastIndex lastTerm with
    | error e => simp
    | ok upToDate =>
      cases upToDate with
      | false => simp
      | true =>
        by_cases hvoted : p.vote = noneID ∨ p.vote = r.id
        · by_cases h0 : r.term = 0
          · simp only [hvoted, h0, true_and, if_true, true_or, Bool.true_and,
              Bool.not_eq_true', decide_eq_false_iff_not]
            omega
          · simp only [hvoted, h0, true_and, if_true, if_false, false_or,
              Bool.true_and, Bool.not_eq_true', decide_eq_false_iff_not]
            omega
        · simp only [hvoted, true_and, if_false, Bool.true_and,
            Bool.not_eq_true', decide_eq_false_iff_not]
          omega

/-! ## Three nodes -/

/-- Node `i` may campaign, and node `j` is one of its peers. -/
structure Cluster.MayAsk (s : Cluster) (i j : ℕ) (n n' : Node) : Prop where
  node : s.nodes.lookup i = some n
  peer : s.nodes.lookup j = some n'
  state : n.raft.state ≠ .leader
  id : n.raft.id = i
  peerID : n'.raft.id = j
  self : i ∈ n.raft.prs
  mem : j ∈ n.raft.prs

instance Cluster.decidableMayAsk {s : Cluster} {i j : ℕ} {P : Node → Node → Prop}
    [∀ n n', Decidable (P n n')] : Decidable (∃ n n', s.MayAsk i j n n' ∧ P n n') :=
  decidable_of_iff (∃ n, s.nodes.lookup i = some n ∧ ∃ n', s.nodes.lookup j = some n' ∧
    (n.raft.state ≠ .leader ∧ n.raft.id = i ∧ n'.raft.id = j ∧ i ∈ n.raft.prs ∧ j ∈ n.raft.prs) ∧
      P n n') <| by
    constructor
    · rintro ⟨n, hn, n', hn', ⟨hstate, hid, hid', hself, hmem⟩, hP⟩
      exact ⟨n, n', ⟨hn, hn', hstate, hid, hid', hself, hmem⟩, hP⟩
    · rintro ⟨n, n', h, hP⟩
      exact ⟨n, h.node, n', h.peer, ⟨h.state, h.id, h.peerID, h.self, h.mem⟩, hP⟩

/-- At the start the question predicts the vote. -/
theorem preVotePredicts_iff_start : ∃ s n n',
    FixedCluster.trio.exec [] = .ok s ∧ s.MayAsk 1 2 n n' ∧
      n.raft.PreVotePredicts n'.raft := by
  obtain ⟨s, hs, n, n', h, hagree⟩ : ∃ s, FixedCluster.trio.exec [] = .ok s ∧
      ∃ n n', s.MayAsk 1 2 n n' ∧ n.raft.votesAgree n'.raft = true := by decide +kernel
  refine ⟨s, n, n', hs, h, ?_⟩
  exact (preVotePredicts_iff n.raft n'.raft h.state (h.id ▸ h.self) (h.peerID ▸ h.mem)
    (by rw [h.id, h.peerID]; decide)).2 hagree

/-- Nodes `2` and `3` have voted for node `1`, which is elected in term `2`. -/
def electFirst : List Event :=
  [.campaign 1, .ready 1, .advance 1,
    .deliver { type := .msgVote, toID := 2, fromID := 1, term := 2 },
    .deliver { type := .msgVote, toID := 3, fromID := 1, term := 2 },
    .ready 2, .advance 2, .ready 3, .advance 3,
    .deliver { type := .msgVoteResp, toID := 1, fromID := 2, term := 2 }]

/-- **A question that is refused.** When the leader is gone, node `3` refuses the question of node
`2`, although it would vote for it. -/
theorem preVote_refused : ∃ s n n' m m',
    FixedCluster.trio.exec electFirst = .ok s ∧ s.MayAsk 2 3 n n' ∧
    n'.raft.vote = 1 ∧ n.raft.Asks .preElection n'.raft.id m ∧ n.raft.Asks .election n'.raft.id m' ∧
    ¬ n'.raft.Grants m ∧ n'.raft.Grants m' ∧ ¬ n.raft.PreVotePredicts n'.raft := by
  obtain ⟨s, hs, n, n', h, hterm, hterm', hvote, hlog⟩ :
      ∃ s, FixedCluster.trio.exec electFirst = .ok s ∧ ∃ n n', s.MayAsk 2 3 n n' ∧
        n.raft.term = 2 ∧ n'.raft.term = 2 ∧ n'.raft.vote = 1 ∧
        n.raft.notBehind n'.raft = true := by decide +kernel
  obtain ⟨lastTerm, hlast, hup⟩ := Raft.notBehind_iff.1 hlog
  have hasks := fun typ => (Raft.campaign_asks typ h.state (h.id ▸ h.self) (h.peerID ▸ h.mem)
    (by rw [h.id, h.peerID]; decide) (n.raft.request typ lastTerm n'.raft.id)).2 ⟨_, hlast, rfl⟩
  have hrefused : ¬ n'.raft.Grants (n.raft.request .preElection lastTerm n'.raft.id) := by
    rw [Raft.grants_preVote rfl]
    rintro ⟨-, -, hfree | hlater | hsame⟩
    · rw [hvote] at hfree
      cases hfree
    · have hlater : n.raft.term > n'.raft.term := hlater
      omega
    · have hsame : n.raft.id = n'.raft.vote := hsame
      rw [h.id, hvote] at hsame
      cases hsame
  have hgranted : n'.raft.Grants (n.raft.request .election lastTerm n'.raft.id) := by
    have hnext : (n.raft.request .election lastTerm n'.raft.id).term = n.raft.term + 1 :=
      Raft.asCandidate_term
    rw [Raft.grants_vote rfl (by omega)]
    exact ⟨hup, .inl (by omega)⟩
  refine ⟨s, n, n', _, _, hs, h, hvote, hasks _, hasks _, hrefused, hgranted, ?_⟩
  exact fun hpredicts => hrefused ((hpredicts.1 _ _ (hasks _) (hasks _)).2 hgranted)

end Yukino.Replica
