import Yukino.Lib.Tally
import Yukino.Raft.Delivery

set_option autoImplicit false

/-!
# Election safety

A term has at most one leader. The argument does not look at the logs. A vote is made known
by a message: the answer to a vote request, or the candidate's own request. The votes that
the network knows of agree with the voter's `Term` and `Vote`, and with the hard state that
a restart would find, so no node is ever known to have voted for two candidates of one term.

## Main definitions

* `Message.Casts` — the vote that a message makes known.
* `Raft.Votes` — what the votes known of a node have to do with its state.
* `Cluster.VotesOk` — the invariant of the runs.
* `voteUnset` — a restart is harmless when the saved hard state has no vote and is that of the last
  `Ready`.

## Main results

* `FixedCluster.one_leader` — election safety.
-/

namespace Yukino.Replica

open Consensus Outcome List AList

/-! ## Votes in messages -/

/-- The message makes known that `v` votes for `d` in term `t`: it grants a vote, or it is
the request of the candidate `v` itself. -/
def Message.Casts (m : Message) (v t d : ℕ) : Prop :=
  m.type = .msgVoteResp ∧ m.reject = false ∧ m.fromID = v ∧ m.term = t ∧ m.toID = d ∨
    m.type = .msgVote ∧ m.fromID = v ∧ m.term = t ∧ d = v

/-- Some of the messages make the vote known. -/
def Cast (ms : List Message) (v t d : ℕ) : Prop := ∃ m ∈ ms, m.Casts v t d

/-- There is a request for votes by `d` in term `t`. -/
def Asked (ms : List Message) (t d : ℕ) : Prop :=
  ∃ m ∈ ms, m.type = .msgVote ∧ m.fromID = d ∧ m.term = t

variable {ms ms' net net' : List Message} {t d i : ℕ} {ids : Finset ℕ}

lemma Cast.mono (h : ms ⊆ ms') {v : ℕ} (hc : Cast ms v t d) : Cast ms' v t d := by
  obtain ⟨m, hm, hv⟩ := hc
  exact ⟨m, h hm, hv⟩

lemma cast_append : Cast (ms ++ ms') i t d ↔ Cast ms i t d ∨ Cast ms' i t d := by
  simp only [Cast, mem_append, or_and_right, exists_or]

lemma Asked.mono (h : ms ⊆ ms') (ha : Asked ms t d) : Asked ms' t d := by
  obtain ⟨m, hm, hv⟩ := ha
  exact ⟨m, h hm, hv⟩

/-- What holds of a message that node `i` has sent. -/
structure Message.VoteOk (m : Message) (net : List Message) (i : ℕ) : Prop where
  stamped : m.type ≠ .msgProp → m.type ≠ .msgReadIndex → 1 ≤ m.term
  sender : m.type = .msgVote ∨ m.type = .msgVoteResp → m.fromID = i
  asked : m.type = .msgVoteResp → m.reject = false → Asked net m.term m.toID

lemma Message.VoteOk.mono {m : Message} (hsub : net ⊆ net')
    (h : m.VoteOk net i) : m.VoteOk net' i :=
  ⟨h.stamped, h.sender, fun h1 h2 => (h.asked h1 h2).mono hsub⟩

/-- The network knows of a quorum of votes for `i`, unless `i` is the only node. -/
def ElectedBy (ids : Finset ℕ) (net : List Message) (t i : ℕ) : Prop :=
  ids.card = 1 ∨ ∃ q, (QuorumSystem.majority ids).isQuorum q ∧ ∀ v ∈ q, Cast net v t i

lemma ElectedBy.mono (hsub : net ⊆ net') (h : ElectedBy ids net t i) : ElectedBy ids net' t i := by
  rcases h with h | ⟨q, hq, hv⟩
  · exact .inl h
  · exact .inr ⟨q, hq, fun v hvq => (hv v hvq).mono hsub⟩

/-- What holds of the messages in the network. -/
structure NetVotes (ids : Finset ℕ) (net : List Message) : Prop where
  ok : ∀ m ∈ net, ∃ i ∈ ids, m.VoteOk net i
  /-- No node is known to have voted for two candidates of one term. -/
  unique : ∀ v t d d', Cast net v t d → Cast net v t d' → d = d'

lemma NetVotes.asked_mem (h : NetVotes ids net) (ha : Asked net t d) : d ∈ ids := by
  obtain ⟨m, hm, ht, rfl, -⟩ := ha
  obtain ⟨i, hi, hok⟩ := h.ok m hm
  rw [hok.sender (.inl ht)]
  exact hi

/-! ## The votes of a node -/

namespace Raft

/-- What the votes known of node `i` have to do with its state. -/
structure Votes (ids : Finset ℕ) (net : List Message) (i : ℕ) (r : Raft) : Prop where
  self : i ∈ ids
  id : r.id = i
  term_pos : 1 ≤ r.term
  mem_prs : ∀ j, j ∈ r.prs ↔ j ∈ ids
  msgs : ∀ m ∈ r.msgs, m.VoteOk net i
  /-- Votes are for past terms, or recorded in `Vote`. -/
  vote : ∀ t d, Cast (net ++ r.msgs) i t d → t ≤ r.term ∧ (t = r.term → r.vote = d)
  unique : ∀ t d d', Cast (net ++ r.msgs) i t d → Cast (net ++ r.msgs) i t d' → d = d'
  candidate : r.state = .candidate → r.vote = i ∧ ∀ v, r.votes.lookup v = some true →
    v = i ∨ v ∈ ids ∧ Cast net v r.term i
  leader : r.state = .leader → ElectedBy ids net r.term i

namespace Votes

variable {ids : Finset ℕ} {net : List Message} {i : ℕ} {r r' : Raft} {m : Message}

variable (h : Votes ids net i r)
include h

/-- The node enters a higher term. -/
lemma advance (hid : r'.id = r.id) (hterm : r.term < r'.term)
    (hmsgs : r'.msgs = r.msgs) (hprs : r'.prs = r.prs) (hlead : r'.state ≠ .leader)
    (hcand : r'.state = .candidate → r'.vote = i ∧ r'.votes = ∅) : Votes ids net i r' where
  self := h.self
  id := hid.trans h.id
  term_pos := h.term_pos.trans hterm.le
  mem_prs := hprs ▸ h.mem_prs
  msgs := hmsgs ▸ h.msgs
  vote t d hc := by
    rw [hmsgs] at hc
    have := (h.vote t d hc).1
    exact ⟨by omega, fun heq => by omega⟩
  unique := hmsgs ▸ h.unique
  candidate hs := by
    obtain ⟨hv, hvotes⟩ := hcand hs
    refine ⟨hv, fun v hlookup => ?_⟩
    rw [hvotes] at hlookup
    simp at hlookup
  leader hs := absurd hs hlead

/-- More messages wait to be handed out. The votes they make known are for the current term
and recorded in `Vote`. -/
lemma addMsgs (ms : List Message)
    (hok : ∀ m ∈ ms, m.VoteOk net i)
    (hcast : ∀ m ∈ ms, ∀ t d, m.Casts i t d → t = r.term ∧ r.vote = d) :
    Votes ids net i { r with msgs := r.msgs ++ ms } := by
  have hsplit : ∀ t d, Cast (net ++ (r.msgs ++ ms)) i t d →
      Cast (net ++ r.msgs) i t d ∨ t = r.term ∧ r.vote = d := by
    intro t d hc
    rw [← append_assoc, cast_append] at hc
    exact hc.imp_right fun ⟨m, hm, hc⟩ => hcast m hm t d hc
  refine { h with msgs := ?_, vote := ?_, unique := ?_ }
  · intro m hm
    rcases mem_append.1 hm with hm | hm
    · exact h.msgs m hm
    · exact hok m hm
  · intro t d hc
    rcases hsplit t d hc with hold | ⟨rfl, rfl⟩
    · exact h.vote t d hold
    · exact ⟨le_rfl, fun _ => rfl⟩
  · intro t d d' hc hc'
    rcases hsplit t d hc with hold | ⟨rfl, rfl⟩
    · rcases hsplit t d' hc' with hold' | ⟨rfl, rfl⟩
      · exact h.unique t d d' hold hold'
      · exact ((h.vote _ d hold).2 rfl).symm
    · rcases hsplit _ d' hc' with hold' | ⟨-, rfl⟩
      · exact (h.vote _ d' hold').2 rfl
      · rfl

/-- A message that is no vote and no request for one. -/
lemma send {m' : Message} (h1 : m'.type ≠ .msgVote)
    (h2 : m'.type = .msgVoteResp → m'.reject = true ∧ m'.fromID = noneID) :
    Votes ids net i (r.send m') := by
  refine h.addMsgs [r.stamp m'] ?_ ?_
  · intro m hm
    rw [mem_singleton.1 hm]
    refine ⟨fun h3 h4 => ?_, fun ht => ?_, fun ht hrej => ?_⟩
    · rw [stamp_type] at h3 h4
      rw [stamp_term _ _ h3 h4]
      exact h.term_pos
    · rw [stamp_type] at ht
      rcases ht with ht | ht
      · exact absurd ht h1
      · rw [stamp_fromID _ _ (h2 ht).2, h.id]
    · rw [stamp_type] at ht
      rw [stamp_reject, (h2 ht).1] at hrej
      cases hrej
  · intro m hm t d hc
    rw [mem_singleton.1 hm] at hc
    rcases hc with ⟨ht, hrej, -⟩ | ⟨ht, -⟩
    · rw [stamp_type] at ht
      rw [stamp_reject, (h2 ht).1] at hrej
      cases hrej
    · rw [stamp_type] at ht
      exact absurd ht h1

/-- Votes are for nodes of the cluster. -/
lemma cast_mem (hnet : NetVotes ids net) {t d : ℕ} (hc : Cast (net ++ r.msgs) i t d) : d ∈ ids := by
  obtain ⟨m, hm, ⟨ht, hrej, -, -, rfl⟩ | ⟨-, -, -, rfl⟩⟩ := hc
  · rcases mem_append.1 hm with hm | hm
    · obtain ⟨j, -, hok⟩ := hnet.ok m hm
      exact hnet.asked_mem (hok.asked ht hrej)
    · exact hnet.asked_mem ((h.msgs m hm).asked ht hrej)
  · exact h.self

/-- **A candidate with a quorum of granted votes is elected.**

**Proof sketch.** The granted votes of other nodes are in the network. If there is another
node, a quorum contains one, and its vote was an answer to a request of the candidate; the
request makes the candidate's own vote known as well. -/
lemma electedBy (hnet : NetVotes ids net) (hs : r.state = .candidate)
    (hq : r.quorum = r.granted) : ElectedBy ids net r.term i := by
  by_cases hone : ids.card = 1
  · exact .inl hone
  right
  obtain ⟨-, hvotes⟩ := h.candidate hs
  set q := Tally.keysWhere r.votes fun b => b with hqdef
  have hmem : ∀ v ∈ q, v = i ∨ v ∈ ids ∧ Cast net v r.term i := by
    intro v hv
    obtain ⟨b, hb, rfl⟩ := (Tally.mem_keysWhere _ _).1 hv
    exact hvotes v hb
  have hcard : q.card = ids.card / 2 + 1 := by
    rw [Tally.card_keysWhere]
    change r.granted = _
    rw [← hq, quorum, Tally.length_keys r.prs h.mem_prs]
  have hpos : 0 < ids.card := Finset.card_pos.2 ⟨i, h.self⟩
  -- some other node has voted for the candidate, so the candidate has asked
  have hself : Cast net i r.term i := by
    obtain ⟨v, hv, hne⟩ := Finset.exists_mem_ne (show 1 < q.card by omega) i
    rcases hmem v hv with rfl | ⟨-, m, hm, ⟨ht, hrej, -, hterm, hto⟩ | ⟨-, -, -, heq⟩⟩
    · exact absurd rfl hne
    · obtain ⟨j, -, hok⟩ := hnet.ok m hm
      have hasked := hok.asked ht hrej
      rw [hterm, hto] at hasked
      -- a request for votes makes the candidate's own vote known
      obtain ⟨x, hx, hreq, hfrom, hxterm⟩ := hasked
      exact ⟨x, hx, .inr ⟨hreq, hfrom, hxterm, rfl⟩⟩
    · exact absurd heq.symm hne
  refine ⟨q, ⟨fun v hv => ?_, hcard.ge⟩, fun v hv => ?_⟩
  · rcases hmem v hv with rfl | ⟨hin, -⟩
    · exact h.self
    · exact hin
  · rcases hmem v hv with rfl | ⟨-, hc⟩
    · exact hself
    · exact hc

/-- The vote of another node is counted. -/
lemma poll {v : ℕ} {b : Bool}
    (hv : r.state = .candidate → b = true → v = i ∨ v ∈ ids ∧ Cast net v r.term i) :
    Votes ids net i (r.poll v b) := by
  unfold Raft.poll
  split
  · exact h
  · refine { h with candidate := fun hs => ⟨(h.candidate hs).1, fun w hw => ?_⟩ }
    rcases eq_or_ne w v with rfl | hne
    · rw [lookup_insert] at hw
      exact hv hs (Option.some.inj hw)
    · rw [lookup_insert_ne hne] at hw
      exact (h.candidate hs).2 w hw

/-- A vote is granted: it is the first one in this term, or for the same candidate again. -/
lemma grant (hnet : NetVotes ids net) (hnone : noneID ∉ ids) {d : ℕ}
    (hfree : r.vote = noneID ∨ d = r.vote) (hasked : Asked net r.term d) :
    Votes ids net i ({ r with vote := d }.send { type := .msgVoteResp, toID := d }) := by
  have hvote : ∀ t d', Cast (net ++ r.msgs) i t d' → t ≤ r.term ∧ (t = r.term → d = d') := by
    intro t d' hc
    obtain ⟨hle, heq⟩ := h.vote t d' hc
    refine ⟨hle, fun ht => ?_⟩
    rcases hfree with hfree | hfree
    · -- a node without a vote has not voted
      rw [← heq ht, hfree] at hc
      exact absurd (h.cast_mem hnet hc) hnone
    · exact hfree.trans (heq ht)
  have hrecord : Votes ids net i { r with vote := d } := by
    refine { h with vote := hvote, candidate := fun hs => ⟨?_, (h.candidate hs).2⟩ }
    have hself := (h.candidate hs).1
    rcases hfree with hfree | hfree
    · exact absurd (hfree ▸ hself ▸ h.self) hnone
    · exact hfree.trans hself
  refine hrecord.addMsgs [_] ?_ ?_
  · intro m hm
    rw [mem_singleton.1 hm]
    refine ⟨fun _ _ => ?_, fun _ => ?_, fun _ _ => ?_⟩
    · exact h.term_pos
    · exact h.id
    · exact hasked
  · intro m hm t d' hc
    rw [mem_singleton.1 hm] at hc
    rcases hc with ⟨-, -, -, hterm, hto⟩ | ⟨ht, -⟩
    · exact ⟨hterm.symm, hto⟩
    · simp at ht

/-- Votes do not depend on the log. -/
lemma setLog (l : RaftLog) : Votes ids net i { r with raftLog := l } := { h with }

/-- The node leaves an election in its term. -/
lemma stepDown (lead : ℕ) : Votes ids net i (r.becomeFollower r.term lead) := by
  refine { h with term_pos := ?_, vote := ?_, candidate := nofun, leader := nofun }
  · rw [becomeFollower_term]
    exact h.term_pos
  · rw [becomeFollower_term, becomeFollower_vote, if_neg (not_not.2 rfl)]
    exact h.vote

/-- The node wins an election. -/
lemma asLeader (hel : ElectedBy ids net r.term i) : Votes ids net i r.asLeader := by
  refine { h with
    term_pos := by rw [asLeader_term]; exact h.term_pos
    mem_prs := fun j => (mem_resetProgress r _ j).trans (h.mem_prs j)
    vote := ?_
    candidate := by simp [Raft.asLeader]
    leader := fun _ => by rw [asLeader_term]; exact hel }
  rw [asLeader_term, asLeader_vote]
  exact h.vote

/-- A candidate asks for votes: the request makes its own vote known, which `Vote` records. -/
lemma request (hs : r.state = .candidate) (term lastTerm id : ℕ) :
    Votes ids net i (r.send (r.voteRequest term .msgVote lastTerm id)) := by
  have hfrom : (r.stamp (r.voteRequest term .msgVote lastTerm id)).fromID = i :=
    (stamp_fromID _ _ rfl).trans h.id
  refine h.addMsgs [_] ?_ ?_
  · intro m' hm'
    rw [mem_singleton.1 hm']
    refine ⟨fun _ _ => by exact h.term_pos, fun _ => hfrom, fun ht => ?_⟩
    simp [Raft.voteRequest] at ht
  · intro m' hm' t d hc
    rw [mem_singleton.1 hm'] at hc
    rcases hc with ⟨ht, -⟩ | ⟨-, -, hterm, rfl⟩
    · simp [Raft.voteRequest] at ht
    · exact ⟨hterm.symm, (h.candidate hs).1⟩

/-- The answers to reads make no vote known. -/
lemma release {rss : List ReadIndexStatus} {ms : List Message}
    (hms : ∀ x ∈ ms, ∃ rs ∈ rss, x = r.stamp (readAnswer rs)) :
    Votes ids net i { r with msgs := r.msgs ++ ms } := by
  refine h.addMsgs ms ?_ ?_
  · intro x hx
    obtain ⟨rs, -, rfl⟩ := hms x hx
    refine ⟨fun _ _ => h.term_pos, fun ht => ?_, fun ht => ?_⟩
    · simp [readAnswer] at ht
    · simp [readAnswer] at ht
  · intro x hx t d hc
    obtain ⟨rs, -, rfl⟩ := hms x hx
    simp [Message.Casts, readAnswer] at hc

end Votes

variable {ids : Finset ℕ} {net : List Message} {i : ℕ} {m : Message} {r r' : Raft}

/-- A message of another node is in the network, and if it passes the test of the term it is of
the node's term. -/
lemma mem_of_given (hg : m.Given net i) (hnet : NetVotes ids net) (hm : m.type.isLocal = false) :
    m ∈ net ∧ m.toID = i ∧ 1 ≤ m.term ∧ (Current m r → m.term = r.term) ∧
      ∃ j ∈ ids, m.VoteOk net j := by
  obtain ⟨hmem, hto⟩ := hg.mem hm
  obtain ⟨j, hj, hok⟩ := hnet.ok m hmem
  have hpos : 1 ≤ m.term := by
    refine hok.stamped (fun ht => ?_) (fun ht => ?_)
    all_goals simp [ht, MessageType.isLocal] at hm
  exact ⟨hmem, hto, hpos, fun hcur => hcur.resolve_left (by omega), j, hj, hok⟩

/-- The answer to a request for votes is counted. -/
lemma Votes.pollResp (h : Votes ids net i r) (hnet : NetVotes ids net) (hg : m.Given net i)
    (hm : m.type = r.voteRespType) (hrole : r.state = .candidate → Current m r) :
    Votes ids net i (r.poll m.fromID (!m.reject)) := by
  refine h.poll fun hs hb => ?_
  have ht : m.type = .msgVoteResp := by
    rw [hm, voteRespType, hs]
    simp
  obtain ⟨hmem, hto, -, hterm, j, hj, hok⟩ := mem_of_given (r := r) hg hnet (by rw [ht]; rfl)
  have hrej : m.reject = false := by simpa using hb
  exact .inr ⟨hok.sender (.inr ht) ▸ hj, m, hmem, .inl ⟨ht, hrej, rfl, hterm (hrole hs), hto⟩⟩

/-- **An action keeps the votes consistent.** -/
lemma Action.votes
    (ha : Action m r r') (h : Votes ids net i r) (hnet : NetVotes ids net)
    (hnone : noneID ∉ ids) (hg : m.Given net i) : Votes ids net i r' := by
  have hprs : ∀ j, j ∈ r'.prs ↔ j ∈ ids := fun j =>
    (ha.frame.kept.mem_prs j).trans (h.mem_prs j)
  cases ha with
  | aux | commit | readResp | readSingle | addRead | ackRead => exact { h with }
  | progress => exact { h with mem_prs := hprs }
  | append xs _ _ _ _ hx =>
    obtain ⟨l, pr, -, -, rfl⟩ := extendLog_eq_ok hx
    exact { h with mem_prs := hprs }
  | follow t lead ht =>
    rcases ht with ⟨-, hlt, -⟩ | ⟨rfl, -⟩ | ⟨-, h0, hm⟩
    · exact h.advance rfl (by rwa [becomeFollower_term]) rfl rfl (by simp [becomeFollower])
        (by simp [becomeFollower])
    · exact h.stepDown lead
    · obtain ⟨-, -, hpos, -⟩ := mem_of_given (r := r) hg hnet (by rw [hm]; rfl)
      omega
  | preCandidate => exact { h with candidate := nofun, leader := nofun }
  | candidate =>
    refine h.advance rfl ?_ rfl rfl (by simp [asCandidate]) fun _ => ⟨h.id, rfl⟩
    rw [asCandidate_term]
    omega
  | pollSelf => exact h.poll fun _ _ => .inl h.id
  | pollResp hm hrole => exact h.pollResp hnet hg hm hrole
  | lead _ _ hs hq => exact h.asLeader (h.electedBy hnet hs hq)
  | voteRequest typ term lastTerm id hs =>
    cases typ with
    | preElection =>
      exact h.send (by simp [Raft.voteRequest, campaignMsgType])
        (by simp [Raft.voteRequest, campaignMsgType])
    | election => exact h.request hs term lastTerm id
  | heartbeat => exact h.send (by simp [heartbeatMessage]) (by simp [heartbeatMessage])
  | sendAppend => exact h.send (by simp [appendMessage]) (by simp [appendMessage])
  | accept | learn => exact (h.setLog _).send (by simp) (by simp)
  | refuse => exact h.send (by simp) (by simp)
  | forward hm =>
    rcases hm with hm | hm <;> exact h.send (by simp [hm]) (by simp [hm])
  | grant ht hcur hfree =>
    obtain ⟨hmem, -, -, hterm, -⟩ := mem_of_given (r := r) hg hnet (by rw [ht]; rfl)
    exact h.grant hnet hnone hfree ⟨m, hmem, ht, rfl, hterm hcur⟩
  | answerVote x _ _ hfrom _ hx =>
    rcases hx with hx | ⟨hx, hrej⟩
    · exact h.send (by simp [hx]) (by simp [hx])
    · exact h.send (by simp [hx]) fun _ => ⟨hrej, hfrom⟩
  | release states ms _ _ _ _ hms => exact { h.release hms with }

lemma Actions.votes
    (ha : Actions m r r') (h : Votes ids net i r) (hnet : NetVotes ids net)
    (hnone : noneID ∉ ids) (hg : m.Given net i) : Votes ids net i r' :=
  ha.invariant (P := Votes ids net i) (fun _ _ hlast ih => hlast.votes ih hnet hnone hg) h

end Raft

/-! ## Durable votes -/

namespace Node

/-- The hard state that a restart after the next `Advance` would find. -/
def durable (n : Node) : HardState :=
  if n.advanceChan then n.prevHard else n.raft.raftLog.storage.hardState

/-- The votes known of node `i` agree with its state and with its durable state. -/
structure VotesOk (ids : Finset ℕ) (net : List Message) (i : ℕ) (n : Node) : Prop where
  raft : n.raft.Votes ids net i
  durable : ∀ t d, Cast net i t d → t ≤ n.durable.term ∧ (t = n.durable.term → n.durable.vote = d)

end Node

variable {ids : Finset ℕ} {net : List Message} {i : ℕ} {r : Raft}

/-- The network grows by messages that make no other vote of node `i` known, and the node keeps some
of its own. -/
lemma Raft.Votes.extend {ms rest : List Message} {rs : List ReadState}
    (h : r.Votes ids net i) (hrest : rest ⊆ r.msgs)
    (hcast : ∀ t d, Cast (net ++ ms ++ rest) i t d → Cast (net ++ r.msgs) i t d) :
    { r with msgs := rest, readStates := rs }.Votes ids (net ++ ms) i := by
  have hsub : net ⊆ net ++ ms := subset_append_left _ _
  exact { h with
    msgs := fun m hm => (h.msgs m (hrest hm)).mono hsub
    vote := fun t d hc => h.vote t d (hcast t d hc)
    unique := fun t d d' hc hc' => h.unique t d d' (hcast t d hc) (hcast t d' hc')
    candidate := fun hs => ⟨(h.candidate hs).1, fun v hv =>
      ((h.candidate hs).2 v hv).imp_right fun hin => ⟨hin.1, hin.2.mono hsub⟩⟩
    leader := fun hs => (h.leader hs).mono hsub }

/-- The votes of another node that wait to be handed out are not in doubt. -/
lemma Raft.Votes.not_cast {j : ℕ}
    (h : r.Votes ids net i) (hne : j ≠ i) (t d : ℕ) : ¬Cast r.msgs j t d := by
  rintro ⟨m, hm, hc⟩
  rcases hc with ⟨ht, -, hfrom, -⟩ | ⟨ht, hfrom, -⟩
  · exact hne (hfrom.symm.trans ((h.msgs m hm).sender (.inr ht)))
  · exact hne (hfrom.symm.trans ((h.msgs m hm).sender (.inl ht)))

/-! ## Runs -/

/-- The condition under which a restart keeps the votes: the saved hard state has none, and no
`Ready` with another one is outstanding. And the membership is fixed. -/
def voteUnset (s : Cluster) (ev : Event) : Bool :=
  match ev with
  | .restart i _ _ =>
    match s.nodes.lookup i with
    | some n => n.durable = n.raft.raftLog.storage.hardState &&
        n.raft.raftLog.storage.hardState.vote = noneID
    | none => true
  | .applyConfChange .. => false
  | _ => true

/-- The invariant of the runs. -/
structure Cluster.VotesOk (ids : Finset ℕ) (s : Cluster) : Prop where
  wf : s.WF
  net : NetVotes ids s.net
  nodes : ∀ i n, s.nodes.lookup i = some n → n.VotesOk ids s.net i

namespace FixedCluster

variable {c : FixedCluster} {s s' : Cluster} {ev : Event}

/-- A node is replaced, and the network stays. -/
lemma votesOk_insert (h : s.VotesOk c.nodeSet) {i : ℕ} {n : Node}
    (hwf : ({ s with nodes := s.nodes.insert i n } : Cluster).WF)
    (hn : n.VotesOk c.nodeSet s.net i) :
    ({ s with nodes := s.nodes.insert i n } : Cluster).VotesOk c.nodeSet :=
  ⟨hwf, h.net, Cluster.forall_insert (P := fun i n => n.VotesOk c.nodeSet s.net i) h.nodes hn⟩

/-- A node hands out a `Ready`: its votes become known together with the hard state that
will be saved. -/
lemma votesOk_ready (h : s.VotesOk c.nodeSet) {i : ℕ} {n : Node} {rd : Ready}
    (hwf : ({ s with nodes := s.nodes.insert i { n with rd := rd }.takeReady
                     net := s.net ++ rd.message } : Cluster).WF)
    (hn : s.nodes.lookup i = some n)
    (hrd : newReady n.raft n.prevSoft n.prevHard = .ok rd) :
    ({ s with nodes := s.nodes.insert i { n with rd := rd }.takeReady
              net := s.net ++ rd.message } : Cluster).VotesOk c.nodeSet := by
  have hv := h.nodes i n hn
  have hnode := h.wf.nodes i n hn
  have hprev := hnode.takeReady_prevHard hrd
  have hmsg : rd.message = n.raft.msgs := by
    rw [hnode.newReady_eq] at hrd
    cases hrd
    rfl
  rw [hmsg] at hwf ⊢
  have hother : ∀ j, j ≠ i → ∀ t d, ¬Cast n.raft.msgs j t d := fun j hj =>
    hv.raft.not_cast hj
  refine ⟨hwf, ⟨fun m hm => ?_, fun v t d d' hc hc' => ?_⟩, fun j n₁ hj => ?_⟩
  · have hsub : s.net ⊆ s.net ++ n.raft.msgs := subset_append_left _ _
    rcases mem_append.1 hm with hm | hm
    · obtain ⟨k, hk, hok⟩ := h.net.ok m hm
      exact ⟨k, hk, hok.mono hsub⟩
    · exact ⟨i, hv.raft.self, (hv.raft.msgs m hm).mono hsub⟩
  · rcases eq_or_ne v i with rfl | hne
    · exact hv.raft.unique t d d' hc hc'
    · have hold : ∀ e, Cast (s.net ++ n.raft.msgs) v t e → Cast s.net v t e := fun e hc =>
        (cast_append.1 hc).resolve_right (hother v hne t e)
      exact h.net.unique v t d d' (hold d hc) (hold d' hc')
  · rcases eq_or_ne j i with rfl | hne
    · rw [lookup_insert] at hj
      cases hj
      refine ⟨hv.raft.extend (nil_subset _) (by simp), fun t d hc => ?_⟩
      have hdur : Node.durable (Node.takeReady { n with rd := rd }) = n.raft.hardState := hprev
      rw [hdur]
      exact hv.raft.vote t d hc
    · rw [lookup_insert_ne hne] at hj
      have hvj := h.nodes j n₁ hj
      refine ⟨hvj.raft.extend (Subset.refl _) fun t d hc => ?_, fun t d hc => ?_⟩
      · rw [cast_append, cast_append] at hc
        rw [cast_append]
        exact hc.imp_left fun hc => hc.resolve_right (hother j hne t d)
      · exact hvj.durable t d ((cast_append.1 hc).resolve_right (hother j hne t d))

/-- The votes known of a node that has just started are for earlier terms. -/
lemma votes_of_started {net : List Message} {i applied : ℕ} {storage : MemoryStorage} {n : Node}
    (hi : i ∈ c.ids) (hst : Started (c.config i storage applied) (c.peers i) n)
    (hpast : ∀ t d, Cast net i t d → t < n.raft.term)
    (hunique : ∀ t d d', Cast net i t d → Cast net i t d' → d = d') :
    n.raft.Votes c.nodeSet net i where
  self := mem_toFinset.2 hi
  id := hst.id
  term_pos := hst.term_pos
  mem_prs := mem_prs_of_started hi hst
  msgs := by simp [hst.msgs]
  vote t d hc := by
    rw [hst.msgs, append_nil] at hc
    have := hpast t d hc
    exact ⟨by omega, fun heq => by omega⟩
  unique := by
    rw [hst.msgs, append_nil]
    exact hunique
  candidate hs := by
    rw [hst.state] at hs
    cases hs
  leader hs := by
    rw [hst.state] at hs
    cases hs

/-- A node is restarted while its saved hard state has no vote: the votes that are known of
it are for terms before the saved one. -/
lemma votesOk_restart (h : s.VotesOk c.nodeSet) {i applied : ℕ} {n n' : Node}
    (hn : s.nodes.lookup i = some n) (hdur : n.durable = n.raft.raftLog.storage.hardState)
    (hunset : n.raft.raftLog.storage.hardState.vote = noneID)
    (hst : Started (c.config i n.raft.raftLog.storage applied) (c.peers i) n') :
    n'.VotesOk c.nodeSet s.net i := by
  have hv := h.nodes i n hn
  have hstorage : n'.raft.raftLog.storage = n.raft.raftLog.storage := by
    obtain ⟨k, -, hlog⟩ := hst.raftLog
    rw [hlog]
    rfl
  have hpast : ∀ t d, Cast s.net i t d → t < n.raft.raftLog.storage.hardState.term := by
    intro t d hc
    obtain ⟨hle, heq⟩ := hv.durable t d hc
    rw [hdur] at hle heq
    refine lt_of_le_of_ne hle fun ht => ?_
    have hnone : d = noneID := (heq ht).symm.trans hunset
    have hmem := hv.raft.cast_mem h.net (hc.mono (subset_append_left _ _))
    exact c.noneID_notMem_nodeSet (hnone ▸ hmem)
  have hterm : n'.raft.term = if n.raft.raftLog.storage.hardState.term = 0 then 1
      else n.raft.raftLog.storage.hardState.term := hst.term
  have hi : i ∈ c.ids := mem_toFinset.1 hv.raft.self
  refine ⟨votes_of_started hi hst (fun t d hc => ?_) (h.net.unique i), ?_⟩
  · have := hpast t d hc
    rwa [hterm, if_neg (by omega)]
  · have hdur' : n'.durable = n.durable := by
      rw [hdur, Node.durable, hst.advanceChan, hstorage]
      rfl
    rw [hdur']
    exact hv.durable

/-- **Every event keeps the votes consistent**, if a restart finds no vote. -/
lemma votesOk_change (h : s.VotesOk c.nodeSet) (hok : voteUnset s ev = true)
    (hc : c.Change s ev s') : s'.VotesOk c.nodeSet := by
  have hwf := hc.wf h.wf
  cases hc with
  | skip => exact h
  | idle i n rd hn hrd =>
    have hv := h.nodes i n hn
    exact votesOk_insert h hwf ⟨hv.raft, hv.durable⟩
  | react i n m rd r hn hrd hm ha =>
    have hv := h.nodes i n hn
    have hgrows := (ha.logWF (h.wf.nodes i n hn).raft
      (ClusterConfig.wf_of_given h.wf (given_of_event hm))).2
    refine votesOk_insert h hwf ⟨ha.votes hv.raft h.net c.noneID_notMem_nodeSet
      (given_of_event hm), ?_⟩
    have hdur : Node.durable { n with rd := rd, raft := r } = n.durable := by
      unfold Node.durable
      rw [hgrows.storage]
    rw [hdur]
    exact hv.durable
  | ready i n rd hn hidle hrd => exact votesOk_ready h hwf hn hrd
  | advance i n n' hn hout ha =>
    have hv := h.nodes i n hn
    obtain ⟨l', hl', heq⟩ := (h.wf.nodes i n hn).takeAdvance_eq hout
    rw [heq] at ha
    cases ha
    refine votesOk_insert h hwf ⟨{ hv.raft with }, ?_⟩
    have hdur : l'.storage.hardState = n.durable := by
      rw [hl'.hardState, Node.durable, hout]
      rfl
    intro t d hcast
    change t ≤ l'.storage.hardState.term ∧ (t = l'.storage.hardState.term →
      l'.storage.hardState.vote = d)
    rw [hdur]
    exact hv.durable t d hcast
  | conf i index cc n rd hev =>
    rw [hev] at hok
    cases hok
  | restart i applied rand n n' hev hn hstop hst =>
    rw [hev] at hok
    dsimp only [voteUnset] at hok
    rw [hn, Bool.and_eq_true, decide_eq_true_eq, decide_eq_true_eq] at hok
    exact votesOk_insert h hwf (votesOk_restart h hn hok.1 hok.2 hst)

lemma votesOk_begun (h : c.Begun s) : s.VotesOk c.nodeSet where
  wf := h.wf
  net := by
    rw [h.net]
    exact ⟨by simp, by simp [Cast]⟩
  nodes i n hn := by
    obtain ⟨hi, hst⟩ := h.nodes i n hn
    rw [h.net]
    exact ⟨votes_of_started hi hst (by simp [Cast]) (by simp [Cast]), by simp [Cast]⟩

/-- Two nodes that are elected in one term are the same. -/
lemma eq_of_electedBy (h : s.VotesOk c.nodeSet) {t i j : ℕ} (hi : i ∈ c.nodeSet)
    (hj : j ∈ c.nodeSet) (hei : ElectedBy c.nodeSet s.net t i)
    (hej : ElectedBy c.nodeSet s.net t j) : i = j := by
  have hsingle : c.nodeSet.card = 1 → i = j := fun hone =>
    Finset.card_le_one.1 hone.le i hi j hj
  rcases hei with hone | ⟨q, hq, hvq⟩
  · exact hsingle hone
  rcases hej with hone | ⟨q', hq', hvq'⟩
  · exact hsingle hone
  obtain ⟨v, hv, hv'⟩ := (QuorumSystem.majority c.nodeSet).inter hq hq'
  exact h.net.unique v t i j (hvq v hv) (hvq' v hv')

/-- **Election safety**: in a run with fixed membership in which restarts only happen to
nodes whose hard state is saved and has no vote, a term has at most one leader.

**Proof sketch.** A leader was elected by votes that the network knows of, and the network
only grows. So in the later of the two states it knows of a quorum of votes for both
leaders; a node in both quorums has voted for both, hence they are the same. -/
lemma one_leader (evs evs' : List Event) (hok : c.execAlong voteUnset (evs ++ evs') = true)
    (hs : c.exec evs = .ok s) (hs' : c.run s evs' = .ok s') {i j t : ℕ} (hl : s.Leads i t)
    (hl' : s'.Leads j t) : i = j := by
  obtain ⟨n, hn, hlead, rfl⟩ := hl
  obtain ⟨n', hn', hlead', ht⟩ := hl'
  obtain ⟨s₀, hbegun, hexec, halong⟩ := c.exec_eq
  rw [hexec] at hs
  rw [halong] at hok
  obtain ⟨hok₁, hok₂⟩ := ClusterConfig.along_append hok hs
  have hrun := ClusterConfig.along_invariant hok₁ hbegun.sane (votesOk_begun hbegun)
    fun s ev s' hev hs₁ hc h => votesOk_change h hev (ClusterConfig.step_change hs₁ s' hc)
  obtain ⟨hsane, hv⟩ := hrun s hs
  have hrun' := ClusterConfig.along_invariant
    (P := fun s' => s'.VotesOk c.nodeSet ∧ s.net ⊆ s'.net) hok₂ hsane ⟨hv, List.Subset.refl _⟩
    fun s₁ ev s₂ hev hs₁ hstep h => by
      have hc := ClusterConfig.step_change hs₁ s₂ hstep
      exact ⟨votesOk_change h.1 hev hc, List.Subset.trans h.2 hc.net_subset⟩
  obtain ⟨-, hv', hsub⟩ := hrun' s' hs'
  have hi := (hv.nodes i n hn).raft
  have hj := (hv'.nodes j n' hn').raft
  refine eq_of_electedBy hv' hi.self hj.self ((hi.leader hlead).mono hsub) ?_
  rw [← ht]
  exact hj.leader hlead'

end FixedCluster

/-- **Election safety.** In a run with fixed membership and without restarts there is at
most one leader in each term, in whichever states of the run the two are seen, and with any
setting of `PreVote`. -/
theorem at_most_one_leader_per_term (c : FixedCluster) (evs evs' : List Event)
    (hfixed : ∀ ev ∈ evs ++ evs', ev.isFixed = true)
    (s s' : Cluster) (hs : c.exec evs = .ok s) (hs' : c.run s evs' = .ok s')
    (i j t : ℕ) (hi : s.Leads i t) (hj : s'.Leads j t) : i = j := by
  refine FixedCluster.one_leader evs evs' ?_ hs hs' hi hj
  obtain ⟨s₀, -, -, halong⟩ := c.exec_eq
  rw [halong]
  refine ClusterConfig.along_of_forall (fun ev hev s => ?_) s₀
  have hf := hfixed ev hev
  cases ev with
  | applyConfChange | restart => cases hf
  | tick | campaign | propose | proposeConfChange | readIndex | ready | advance | deliver
  | deliverStep => rfl

/-- A node is elected and stays leader. -/
theorem at_most_one_leader_per_term_elected : ∃ s s',
    FixedCluster.trio.exec electNode1 = .ok s ∧
    FixedCluster.trio.run s [.tick 1, .ready 1] = .ok s' ∧
    s.Leads 1 2 ∧ s'.Leads 1 2 ∧ (1 : ℕ) = 1 := by
  refine ⟨_, _, rfl, rfl, ⟨_, rfl, rfl, rfl⟩, ⟨_, rfl, rfl, rfl⟩, ?_⟩
  exact at_most_one_leader_per_term FixedCluster.trio electNode1
    [.tick 1, .ready 1] (by decide) _ _ rfl rfl 1 1 2 ⟨_, rfl, rfl, rfl⟩ ⟨_, rfl, rfl, rfl⟩

/-- **Election safety with restarts** that only happen to nodes whose saved hard state has
no vote and is the one they last handed out. -/
theorem at_most_one_leader_with_restarts (c : FixedCluster) (evs evs' : List Event)
    (hunset : c.execAlong voteUnset (evs ++ evs') = true)
    (s s' : Cluster) (hs : c.exec evs = .ok s) (hs' : c.run s evs' = .ok s')
    (i j t : ℕ) (hi : s.Leads i t) (hj : s'.Leads j t) : i = j :=
  FixedCluster.one_leader evs evs' hunset hs hs' hi hj

/-- Node `1` sends its first entry to node `3`, which saves its hard state and restarts. -/
def restartNode3 : List Event :=
  [.ready 1, .advance 1,
    .deliver { type := .msgApp, fromID := 1, toID := 3, term := 2
               entries := [{ term := 2, index := 1 }] },
    .ready 3, .advance 3, .restart 3 0 fun _ => 0]

/-- A leader is elected, and a node that has not voted is restarted. -/
theorem at_most_one_leader_with_restarts_unset : ∃ s s',
    FixedCluster.trio.exec electNode1 = .ok s ∧
    FixedCluster.trio.run s restartNode3 = .ok s' ∧
    s.Leads 1 2 ∧ s'.Leads 1 2 ∧ (1 : ℕ) = 1 := by
  refine ⟨_, _, rfl, rfl, ⟨_, rfl, rfl, rfl⟩, ⟨_, rfl, rfl, rfl⟩, ?_⟩
  exact at_most_one_leader_with_restarts FixedCluster.trio electNode1
    restartNode3 (by rfl) _ _ rfl rfl 1 1 2 ⟨_, rfl, rfl, rfl⟩ ⟨_, rfl, rfl, rfl⟩

/-- Node `3` votes for node `1` and saves this vote. -/
def voteForNode1 : List Event :=
  [.campaign 1, .ready 1, .advance 1,
    .deliver { type := .msgVote, fromID := 1, toID := 3, term := 2 }, .ready 3, .advance 3]

/-- After a restart, node `3` votes for node `2` in the same term, and both are elected. -/
def voteForNode2 : List Event :=
  [.restart 3 0 fun _ => 0, .campaign 2, .ready 2, .advance 2,
    .deliver { type := .msgVote, fromID := 2, toID := 3, term := 2 }, .ready 3, .advance 3,
    .deliver { type := .msgVoteResp, fromID := 3, toID := 1, term := 2 },
    .deliver { type := .msgVoteResp, fromID := 3, toID := 2, term := 2 }]

/-- **A restart forgets the vote.** `newRaft` reads the term of the saved hard state but not
its vote. Node `3` has saved a vote for node `1` in term `2`; after a restart it grants the
vote of term `2` to node `2`, and term `2` has two leaders. -/
theorem two_leaders_after_restart : ∃ s s' n₃,
    FixedCluster.trio.exec voteForNode1 = .ok s ∧
    FixedCluster.trio.run s voteForNode2 = .ok s' ∧
    s.nodes.lookup 3 = some n₃ ∧ n₃.advanceChan = false ∧
    n₃.raft.raftLog.storage.hardState = { term := 2, vote := 1 } ∧
    ({ type := .msgVoteResp, fromID := 3, toID := 2, term := 2 } : Message) ∈ s'.net ∧
    s'.Leads 1 2 ∧ s'.Leads 2 2 := by
  refine ⟨_, _, _, rfl, rfl, rfl, rfl, rfl, ?_, ⟨_, rfl, rfl, rfl⟩, ⟨_, rfl, rfl, rfl⟩⟩
  decide

end Yukino.Replica
