import Yukino.Lib.Outcome
import Yukino.Raft.Core

set_option autoImplicit false

/-!
# What a step of a node consists of

`Step` and the tick functions branch on the message, the role and the contents of the state,
but all they do is a sequence of a few kinds of small actions: change the role, count a
vote, append entries, send one message, and so on. Here the kinds are listed together with
the conditions under which the code takes them, and it is shown that a step is a sequence of
them. What a property of the nodes has to survive are these actions.

## Main definitions

* `Raft.Action` — the small actions of a node that reacts to a message.
* `Raft.Sane` — the fields that only the constructor and the role changes set.

## Main results

* `Raft.step_actions` — `Step` is a sequence of actions.
* `Raft.tick_actions` — so is a tick.
-/

namespace Yukino.Replica

open Outcome List AList

/-- The role of a node that campaigns. -/
def CampaignType.role : CampaignType → StateType
  | .preElection => .preCandidate
  | .election => .candidate

/-- The messages by which a node can win an election. -/
def MessageType.mayElect : MessageType → Bool
  | .msgHup | .msgVoteResp | .msgPreVoteResp => true
  | _ => false

/-- The messages with which a leader makes itself known. -/
def MessageType.isLeaders : MessageType → Bool
  | .msgApp | .msgHeartbeat => true
  | _ => false

/-- The messages that a follower passes on to its leader. -/
def MessageType.isPassedOn : MessageType → Bool
  | .msgProp | .msgReadIndex => true
  | _ => false

lemma MessageType.isPassedOn_of_mayElect {t : MessageType} (h : t.mayElect = true) :
    t.isPassedOn = false := by
  cases t <;> first | rfl | cases h

lemma MessageType.isPassedOn_of_isLeaders {t : MessageType} (h : t.isLeaders = true) :
    t.isPassedOn = false := by
  cases t <;> first | rfl | cases h

lemma MessageType.ne_msgReadIndex_of_mayElect {t : MessageType} (h : t.mayElect = true) :
    t ≠ .msgReadIndex := by
  rintro rfl
  cases h

/-- A read that was added is queued. -/
lemma ReadOnly.mem_queue_of_added {ro : ReadOnly} {ctx : Bytes} {index : ℕ} {m : Message}
    (h : (ro.addRequest ctx index m).2 = true) :
    ctx ∈ (ro.addRequest ctx index m).1.readIndexQueue := by
  unfold addRequest at h ⊢
  split at h
  · cases h
  · rename_i hnew
    rw [if_neg hnew]
    simp

namespace Raft

/-- The function that `step` holds in each role. -/
def stepFuncOf : StateType → StepFunc
  | .follower => .stepFollower
  | .candidate => .stepCandidate
  | .preCandidate => .stepCandidate
  | .leader => .stepLeader

/-- The field `step` fits the role, and `checkQuorum` is never set. -/
structure Sane (r : Raft) : Prop where
  stepFunc : r.stepFunc = stepFuncOf r.state
  checkQuorum : r.checkQuorum = false

/-- The message is a local one or of the node's term. -/
def Current (m : Message) (r : Raft) : Prop := m.term = 0 ∨ m.term = r.term

/-- The node has taken note of the message's term, or the message is one of those whose term
it does not adopt. -/
def Settled (m : Message) (r : Raft) : Prop :=
  m.term ≤ r.term ∨ m.type = .msgPreVote ∨ m.type = .msgPreVoteResp ∧ m.reject = false

/-- The progress of a peer after its answer `m` to `MsgApp`. -/
def respond (pr : Progress) (m : Message) : Progress :=
  if m.reject then (pr.mayDecreaseTo m.logIndex m.rejectHint).1
  else (pr.maybeUpdate m.logIndex).1

/-- The `MsgApp` to a peer that has the entries before `Next`. -/
def appendMessage (r : Raft) (id : ℕ) (pr : Progress) (es : List Entry) : Message :=
  { toID := id, type := .msgApp
    logTerm := match r.raftLog.term (pr.next - 1) with
      | .ok t => t
      | .error _ => 0
    logIndex := pr.next - 1, entries := es, commitIndex := r.raftLog.commitIndex }

/-- The heartbeat to a peer that has acknowledged the entries up to `Match`. -/
def heartbeatMessage (r : Raft) (id : ℕ) (pr : Progress) (ctx : Bytes) : Message :=
  { toID := id, type := .msgHeartbeat, context := ctx
    commitIndex := min r.raftLog.commitIndex pr.matchIndex }

/-- The answer of the leader to a read that another node has passed on. -/
def readAnswer (rs : ReadIndexStatus) : Message :=
  { toID := rs.req.fromID, type := .msgReadIndexResp, logIndex := rs.index,
    entries := rs.req.entries }

/-- The actions of a node that reacts to the message `m`. -/
inductive Action (m : Message) (r : Raft) : Raft → Prop
  /-- The timers and the known leader. Only `MsgApp` and `MsgHeartbeat` of the node's term
  make it take their sender for the leader. -/
  | aux (lead : ℕ) (electionElapsed heartbeatElapsed timeout : Int32) (rand : ℕ → ℕ)
      (hlead : lead = r.lead ∨ lead = m.fromID ∧ Current m r ∧ m.type.isLeaders = true) :
    Action m r { r with
      lead := lead
      electionElapsed := electionElapsed
      heartbeatElapsed := heartbeatElapsed
      randomizedElectionTimeout := timeout
      rand := rand }
  /-- `becomeFollower` in a higher term, or in the same term after a lost election. A
  heartbeat without a term would bring a candidate back to term `0`. -/
  | follow (t lead : ℕ) (h : t = m.term ∧ r.term < t ∧ ¬ Settled m r ∨
      t = r.term ∧ r.state ≠ .leader ∨ t = 0 ∧ m.term = 0 ∧ m.type = .msgHeartbeat)
      (hlead : lead = noneID ∨ lead = m.fromID ∧ (m.term = 0 ∨ m.term = t) ∧
        (m.type.isLeaders = true ∨ r.term < t ∧ m.type ≠ .msgVote))
      (hpass : m.type.isPassedOn = true → r.term < t) :
    Action m r (r.becomeFollower t lead)
  | preCandidate (h : r.state ≠ .leader) (ht : m.type.mayElect = true) :
    Action m r r.asPreCandidate
  | candidate (h : r.state ≠ .leader) (ht : m.type.mayElect = true) : Action m r r.asCandidate
  /-- The node's own vote. -/
  | pollSelf (typ : CampaignType) (h : r.state = typ.role) : Action m r (r.poll r.id true)
  /-- The vote of another node. -/
  | pollResp (h : m.type = r.voteRespType) (hrole : r.state = .candidate → Current m r) :
    Action m r (r.poll m.fromID (!m.reject))
  | lead (hm : Settled m r) (ht : m.type.mayElect = true) (h : r.state = .candidate)
      (hq : r.quorum = r.granted) :
    Action m r r.asLeader
  /-- Proposed entries, or the empty one of a new leader, are appended by a leader. -/
  | append (xs : List Entry) {r' : Raft} (hm : Settled m r) (ht : m.type ≠ .msgReadIndex)
      (h : r.state = .leader) (hne : xs ≠ [])
      (hx : { r with pendingConf := (filterConf r.pendingConf xs).2 }.extendLog
        (filterConf r.pendingConf xs).1 = .ok r') : Action m r r'
  /-- The index that a quorum has reached is committed if its entry is of the current term. -/
  | commit {k : ℕ} {l : RaftLog} {b : Bool} (ht : m.type ≠ .msgReadIndex)
      (h : r.state = .leader)
      (hk : ((r.prs.entries.map fun pr => pr.2.matchIndex).insertionSort
        (· ≥ ·))[r.quorum - 1]? = some k)
      (hl : r.raftLog.maybeCommit k r.term = .ok (l, b)) : Action m r { r with raftLog := l }
  | voteRequest (typ : CampaignType) (term lastTerm id : ℕ) (h : r.state = typ.role)
      (hl : r.raftLog.lastTerm = .ok lastTerm) (hid : id ≠ r.id) (hprs : id ∈ r.prs) :
    Action m r (r.send (r.voteRequest term (campaignMsgType typ) lastTerm id))
  | heartbeat (id : ℕ) (ctx : Bytes) {pr : Progress} (h : r.state = .leader) (hid : id ≠ r.id)
      (hctx : ctx = [] ∨ m.type = .msgReadIndex ∧ ctx ∈ r.readOnly.readIndexQueue)
      (hpr : r.prs.lookup id = some pr) : Action m r (r.send (r.heartbeatMessage id pr ctx))
  | sendAppend (id : ℕ) {pr : Progress} {es : List Entry} (h : r.state = .leader)
      (hid : id ≠ r.id ∨ id = m.fromID ∧ m.type = .msgAppResp)
      (hpr : r.prs.lookup id = some pr) (hes : r.raftLog.entriesFrom pr.next = .ok es) :
    Action m r (r.send (r.appendMessage id pr es))
  /-- A follower takes the entries of its leader into its log. -/
  | accept {l : RaftLog} {k : ℕ} (h : r.state = .follower) (hm : m.type = .msgApp)
      (hcur : Current m r)
      (hl : r.raftLog.maybeAppend m.logIndex m.logTerm m.commitIndex m.entries =
        .ok (some (l, k))) :
    Action m r ({ r with raftLog := l }.send
      { toID := m.fromID, type := .msgAppResp, logIndex := k })
  /-- The entries of the leader do not continue the log. -/
  | refuse (h : r.state = .follower) (hm : m.type = .msgApp) (hcur : Current m r) :
    Action m r (r.send { toID := m.fromID, type := .msgAppResp, logIndex := m.logIndex
                         reject := true, rejectHint := r.raftLog.lastIndex })
  /-- A follower learns the commit index from a heartbeat. -/
  | learn {l : RaftLog} (h : r.state = .follower) (hm : m.type = .msgHeartbeat)
      (hcur : Current m r)
      (hl : r.raftLog.commitTo (min m.commitIndex r.raftLog.lastIndex) = .ok l) :
    Action m r ({ r with raftLog := l }.send
      { toID := m.fromID, type := .msgHeartbeatResp, context := m.context })
  /-- A proposal or a read is passed on to the leader. -/
  | forward (hm : m.type = .msgProp ∨ m.type = .msgReadIndex) (hlead : r.lead ≠ noneID) :
    Action m r (r.send { m with toID := r.lead })
  /-- The answer of the leader to a read that was passed on. -/
  | readResp (e : Entry) (es : List Entry) (h : r.state = .follower)
      (hm : m.type = .msgReadIndexResp) (he : m.entries = e :: es) :
    Action m r { r with readStates :=
      r.readStates ++ [{ index := m.logIndex, requestCtx := e.data }] }
  /-- A read in a cluster of one node. -/
  | readSingle (e : Entry) (es : List Entry) (h : r.state = .leader)
      (hm : m.type = .msgReadIndex) (he : m.entries = e :: es)
      (hone : r.id ∈ r.prs ∧ r.prs.keys.length ≤ 1) :
    Action m r { r with readStates :=
      r.readStates ++ [{ index := r.raftLog.commitIndex, requestCtx := e.data }] }
  | grant (hm : m.type = .msgVote) (hcur : Current m r)
      (hfree : r.vote = noneID ∨ m.fromID = r.vote)
      (hup : r.raftLog.isUpToDate m.logIndex m.logTerm = .ok true) :
    Action m r ({ r with vote := m.fromID }.send { type := .msgVoteResp, toID := m.fromID })
  /-- A vote is refused, or only promised to a `MsgPreVote`. -/
  | answerVote (x : Message) (hm : m.type = .msgVote ∨ m.type = .msgPreVote)
      (hterm : m.term = 0 ∨ r.term ≤ m.term) (hfrom : x.fromID = noneID)
      (hto : x.toID = m.fromID)
      (hx : x.type = .msgPreVoteResp ∨ x.type = .msgVoteResp ∧ x.reject = true) :
    Action m r (r.send x)
  | addRead (e : Entry) (es : List Entry) (h : r.state = .leader)
      (hm : m.type = .msgReadIndex) (he : m.entries = e :: es)
      (hterm : RaftLog.zeroTermOnErrCompacted (r.raftLog.term r.raftLog.commitIndex) =
        .ok r.term) (hmany : 1 < r.prs.keys.length)
      (hnew : e.data ∉ r.readOnly.pendingReadIndex) :
    Action m r { r with
      readOnly := (r.readOnly.addRequest e.data r.raftLog.commitIndex m).1 }
  /-- An answer to `MsgApp` moves the sender's progress. -/
  | progress (pr : Progress) (h : r.state = .leader) (hm : m.type = .msgAppResp)
      (hterm : Current m r) (hpr : r.prs.lookup m.fromID = some pr) :
    Action m r { r with prs := r.prs.insert m.fromID (respond pr m) }
  | ackRead (h : r.state = .leader) (hm : m.type = .msgHeartbeatResp) (hcur : Current m r) :
    Action m r { r with readOnly := (r.readOnly.recvAck m.context m.fromID).1 }
  /-- A quorum has answered, and the reads up to the context of the answer are released. -/
  | release {ro : ReadOnly} {rss : List ReadIndexStatus} (states : List ReadState)
      (ms : List Message) (h : r.state = .leader) (hm : m.type = .msgHeartbeatResp)
      (hcur : Current m r)
      (hadv : (r.readOnly.recvAck m.context m.fromID).1.advance m.context = .ok (ro, rss))
      (hms : ∀ x ∈ ms, ∃ rs ∈ rss, x = r.stamp (readAnswer rs)) :
    Action m r { r with
      readOnly := ro, readStates := r.readStates ++ states, msgs := r.msgs ++ ms }

/-- Finitely many actions. -/
def Actions (m : Message) : Raft → Raft → Prop := Relation.ReflTransGen (Action m)

namespace Actions

variable {m : Message} {r r₁ r₂ : Raft}

lemma refl : Actions m r r := Relation.ReflTransGen.refl

lemma single (h : Action m r r₁) : Actions m r r₁ := Relation.ReflTransGen.single h

lemma trans (h : Actions m r r₁) (h' : Actions m r₁ r₂) : Actions m r r₂ :=
  Relation.ReflTransGen.trans h h'

lemma tail (h : Actions m r r₁) (h' : Action m r₁ r₂) : Actions m r r₂ :=
  Relation.ReflTransGen.tail h h'

/-- What every action preserves, a step preserves. -/
lemma invariant {P : Raft → Prop} (hP : ∀ r r', Action m r r' → P r → P r')
    (h : Actions m r r₁) (hr : P r) : P r₁ := by
  induction h with
  | refl => exact hr
  | tail _ hlast ih => exact hP _ _ hlast ih

end Actions

/-! ## Messages that are sent -/

section Stamp

variable (r : Raft) (m : Message)

lemma stamp_fields : r.stamp m = { m with
    fromID := if m.fromID = noneID then r.id else m.fromID
    term := if m.type ≠ .msgProp ∧ m.type ≠ .msgReadIndex then r.term else m.term } := by
  unfold stamp
  dsimp only
  by_cases h : m.fromID = noneID
  · split_ifs <;> rfl
  · split_ifs <;> rfl

@[simp] lemma stamp_type : (r.stamp m).type = m.type := by rw [stamp_fields]

@[simp] lemma stamp_toID : (r.stamp m).toID = m.toID := by rw [stamp_fields]

@[simp] lemma stamp_entries : (r.stamp m).entries = m.entries := by rw [stamp_fields]

@[simp] lemma stamp_logIndex : (r.stamp m).logIndex = m.logIndex := by rw [stamp_fields]

@[simp] lemma stamp_reject : (r.stamp m).reject = m.reject := by rw [stamp_fields]

/-- Every message but a proposal or a read carries the term of its sender. -/
lemma stamp_term (h : m.type ≠ .msgProp) (h' : m.type ≠ .msgReadIndex) :
    (r.stamp m).term = r.term := by
  rw [stamp_fields]
  exact if_pos ⟨h, h'⟩

lemma stamp_fromID (h : m.fromID = noneID) : (r.stamp m).fromID = r.id := by
  rw [stamp_fields]
  exact if_pos h

end Stamp

variable {r r' : Raft} {id : ℕ}

lemma stamp_eq {m : Message} (hfrom : m.fromID = noneID) (h : m.type ≠ .msgProp)
    (h' : m.type ≠ .msgReadIndex) : r.stamp m = { m with fromID := r.id, term := r.term } := by
  unfold stamp
  rw [if_pos hfrom, if_pos ⟨h, h'⟩]

lemma extendLog_eq_ok {es : List Entry} (h : r.extendLog es = .ok r') :
    ∃ l pr, r.raftLog.append (r.stampEntries es) = .ok l ∧ r.prs.lookup r.id = some pr ∧
      r' = { r with raftLog := l, prs := r.prs.insert r.id (pr.maybeUpdate l.lastIndex).1 } := by
  obtain ⟨l, hl, h⟩ := bind_eq_ok.1 h
  split at h
  · cases h
  · rename_i pr hpr
    cases h
    exact ⟨l, pr, hl, hpr, rfl⟩

/-! ## Released reads -/

lemma releaseRead_eq_ok {rs : ReadIndexStatus}
    (h : r.releaseRead rs = .ok r') :
    (∃ e es, rs.req.entries = e :: es ∧ r' = { r with readStates :=
      r.readStates ++ [{ index := rs.index, requestCtx := e.data }] }) ∨
    r' = r.send (readAnswer rs) := by
  unfold releaseRead at h
  dsimp only at h
  split at h
  · left
    split at h
    · cases h
    · rename_i e es he
      cases h
      exact ⟨e, es, he, rfl⟩
  · right
    cases h
    rfl

/-- The state of a node after it has released some of the reads `rss`. -/
def Released (rss : List ReadIndexStatus) (r r' : Raft) : Prop :=
  ∃ states ms, r' = { r with readStates := r.readStates ++ states, msgs := r.msgs ++ ms } ∧
    (∀ x ∈ states, ∃ rs ∈ rss, ∃ e es, rs.req.entries = e :: es ∧ rs.index = x.index ∧
      e.data = x.requestCtx) ∧
    ∀ m' ∈ ms, ∃ rs ∈ rss, m' = r.stamp (readAnswer rs)

/-- Releasing reads only adds read states and answers. -/
lemma releaseReads_ensures (rss : List ReadIndexStatus) (r : Raft) :
    Ensures (rss.foldlM releaseRead r) (Released rss r) := by
  refine Ensures.foldlM ⟨[], [], by simp, by simp, by simp⟩ ?_
  rintro rs hrs r₁ ⟨states, ms, rfl, hstates, hms⟩ r₂ hr₂
  rcases releaseRead_eq_ok hr₂ with ⟨e, es, he, rfl⟩ | rfl
  · refine ⟨states ++ [{ index := rs.index, requestCtx := e.data }], ms, by simp, ?_, hms⟩
    intro x hx
    rw [mem_append, mem_singleton] at hx
    rcases hx with hx | rfl
    · exact hstates x hx
    · exact ⟨rs, hrs, e, es, he, rfl, rfl⟩
  · refine ⟨states, ms ++ [r.stamp (readAnswer rs)], by simp [send, stamp], hstates, ?_⟩
    intro m' hm'
    rw [mem_append, mem_singleton] at hm'
    rcases hm' with hm' | rfl
    · exact hms m' hm'
    · exact ⟨rs, hrs, rfl⟩

/-- The case `MsgHeartbeatResp`: nothing is pending, or the answer is noted, and when a
quorum has answered the reads up to its context are released. -/
lemma handleHeartbeatResp_ensures (r : Raft) (m : Message) :
    Ensures (r.handleHeartbeatResp m) fun r' =>
      r' = r ∨ r' = { r with readOnly := (r.readOnly.recvAck m.context m.fromID).1 } ∨
      r.quorum ≤ (r.readOnly.recvAck m.context m.fromID).2.card ∧
      ∃ ro rss, (r.readOnly.recvAck m.context m.fromID).1.advance m.context = .ok (ro, rss) ∧
        Released rss { r with readOnly := ro } r' := by
  unfold handleHeartbeatResp
  split
  · exact .ok (.inl rfl)
  · dsimp only
    split
    · exact .ok (.inr (.inl rfl))
    · rename_i hcard
      refine Ensures.bind (P := fun p => (r.readOnly.recvAck m.context m.fromID).1.advance
        m.context = .ok p) (fun p hp => hp) fun p hp => ?_
      refine (releaseReads_ensures p.2 _).mono fun r' hr' => .inr (.inr ⟨?_, p.1, p.2, hp, hr'⟩)
      exact not_lt.1 hcard

/-! ## What no action changes -/

section Frame

variable {m : Message} {r r' : Raft}

lemma poll_eq (id : ℕ) (v : Bool) : r.poll id v = { r with votes := (r.poll id v).votes } := by
  unfold poll
  split
  · rfl
  · rfl

@[simp] lemma becomeFollower_term (t lead : ℕ) : (r.becomeFollower t lead).term = t := by
  change (if r.term ≠ t then t else r.term) = t
  split
  · rfl
  · rename_i h
    exact not_not.1 h

lemma becomeFollower_vote (t lead : ℕ) :
    (r.becomeFollower t lead).vote = if r.term ≠ t then noneID else r.vote := rfl

lemma asCandidate_term : r.asCandidate.term = r.term + 1 := by
  change (if r.term ≠ r.term + 1 then r.term + 1 else r.term) = r.term + 1
  rw [if_pos (by omega)]

lemma asLeader_term : r.asLeader.term = r.term := by
  exact ite_self _

lemma asLeader_vote : r.asLeader.vote = r.vote := by
  change (if r.term ≠ r.term then noneID else r.vote) = r.vote
  rw [if_neg (not_not.2 rfl)]

/-- `handleVote` grants the vote, or only answers. -/
lemma handleVote_ensures (r : Raft) (m : Message) :
    Ensures (r.handleVote m) fun r' => ∃ upToDate,
      r.raftLog.isUpToDate m.logIndex m.logTerm = .ok upToDate ∧
      ((upToDate = true ∧ (r.vote = noneID ∨ m.term > r.term ∨ m.fromID = r.vote) ∧
        m.type = .msgVote ∧ r' = { r with vote := m.fromID }.send
          { type := .msgVoteResp, toID := m.fromID }) ∨
      r' = r.send { type := .msgPreVoteResp, toID := m.fromID } ∨
      r' = r.send { type := .msgVoteResp, toID := m.fromID, reject := true } ∨
      r' = r.send { type := .msgPreVoteResp, toID := m.fromID, reject := true }) := by
  refine Ensures.bind (P := fun u => r.raftLog.isUpToDate m.logIndex m.logTerm = .ok u)
    (fun u hu => hu) fun u hu => ?_
  split
  · rename_i hgrant
    simp only [Bool.and_eq_true, Bool.or_eq_true, decide_eq_true_eq] at hgrant
    split
    · rename_i hm
      exact .ok ⟨u, hu, .inl ⟨hgrant.1, or_assoc.1 hgrant.2, hm, rfl⟩⟩
    · exact .ok ⟨u, hu, .inr (.inl rfl)⟩
  · split
    · exact .ok ⟨u, hu, .inr (.inr (.inl rfl))⟩
    · exact .ok ⟨u, hu, .inr (.inr (.inr rfl))⟩

/-- What a node keeps for its whole life with one membership. -/
structure Kept (r r' : Raft) : Prop where
  id : r'.id = r.id
  mem_prs : ∀ j, j ∈ r'.prs ↔ j ∈ r.prs
  sane : r.Sane → r'.Sane

lemma Kept.refl (r : Raft) : Kept r r := ⟨rfl, fun _ => Iff.rfl, fun h => h⟩

lemma Kept.trans {r₁ r₂ : Raft} (h : Kept r r₁) (h' : Kept r₁ r₂) : Kept r r₂ :=
  ⟨h'.id.trans h.id, fun j => (h'.mem_prs j).trans (h.mem_prs j), fun hr => h'.sane (h.sane hr)⟩

/-- A membership change touches the progresses and the flag, and a node that is removed may
become a follower. -/
lemma applyConfChange_cases (r : Raft) (cc : ConfChange) : ∃ prs,
    r.applyConfChange cc = { r with prs := prs, pendingConf := false } ∨
    r.applyConfChange cc =
      { { r with prs := prs }.becomeFollower r.term noneID with pendingConf := false } := by
  have hadd : ∀ id, ∃ prs, r.addNode id = { r with prs := prs } := by
    intro id
    unfold addNode
    split <;> exact ⟨_, rfl⟩
  unfold applyConfChange removeNode
  split
  · cases cc.type with
    | addNode | updateNode =>
      obtain ⟨prs, heq⟩ := hadd cc.nodeID
      exact ⟨prs, .inl (by rw [heq])⟩
    | removeNode =>
      dsimp only
      split
      · exact ⟨_, .inl rfl⟩
      · split
        · exact ⟨_, .inr rfl⟩
        · exact ⟨_, .inl rfl⟩
  · exact ⟨_, .inl rfl⟩

/-- What a membership change leaves as it is. -/
structure ConfFrame (r r' : Raft) : Prop where
  id : r'.id = r.id
  raftLog : r'.raftLog = r.raftLog
  term : r'.term = r.term
  msgs : r'.msgs = r.msgs
  readOnly : r'.readOnly = r.readOnly
  sane : r.Sane → r'.Sane
  leader : r'.state = .leader → r.state = .leader

lemma applyConfChange_frame (r : Raft) (cc : ConfChange) : ConfFrame r (r.applyConfChange cc) := by
  obtain ⟨prs, heq | heq⟩ := r.applyConfChange_cases cc
  · rw [heq]
    exact ⟨rfl, rfl, rfl, rfl, rfl, fun h => ⟨h.stepFunc, h.checkQuorum⟩, fun h => h⟩
  · rw [heq]
    exact ⟨rfl, rfl, becomeFollower_term _ _, rfl, rfl, fun h => ⟨rfl, h.checkQuorum⟩, nofun⟩

/-- What every action does to the identity, the role and the term of a node. -/
structure Frame (m : Message) (r r' : Raft) : Prop where
  kept : Kept r r'
  /-- The term never decreases, if heartbeats have one. -/
  term_le : (m.type = .msgHeartbeat → 1 ≤ m.term) → r.term ≤ r'.term
  /-- Who leads has just been elected, or has led before. -/
  leader : r'.state = .leader → Settled m r ∨ r.state = .leader ∧ r'.term = r.term

/-- An action that changes neither the role nor the term. -/
lemma Frame.of_eq (hprs : ∀ j, j ∈ r'.prs ↔ j ∈ r.prs)
    (h : (r'.id, r'.state, r'.term, r'.stepFunc, r'.checkQuorum) =
      (r.id, r.state, r.term, r.stepFunc, r.checkQuorum)) : Frame m r r' := by
  simp only [Prod.mk.injEq] at h
  obtain ⟨hid, hstate, hterm, hstep, hquorum⟩ := h
  refine ⟨⟨hid, hprs, fun hr => ⟨?_, hquorum.trans hr.checkQuorum⟩⟩, fun _ => hterm.ge,
    fun hl => .inr ⟨hstate.symm.trans hl, hterm⟩⟩
  rw [hstep, hstate]
  exact hr.stepFunc

/-- Replacing the value of a key keeps the keys. -/
lemma mem_insert_of_mem {β : Type} {a : AList fun _ : ℕ => β} {i : ℕ} (hi : i ∈ a) (b : β)
    (j : ℕ) : j ∈ a.insert i b ↔ j ∈ a := by
  rw [mem_insert]
  constructor
  · rintro (rfl | h)
    · exact hi
    · exact h
  · exact .inr

lemma mem_resetProgress (r : Raft) (k j : ℕ) : j ∈ r.resetProgress k ↔ j ∈ r.prs := by
  have hfold : ∀ (ids : List ℕ) (prs : AList fun _ : ℕ => Progress), (∀ i ∈ ids, i ∈ prs) →
      (j ∈ ids.foldl (fun prs id => if id = r.id then prs
        else prs.insert id { next := k + 1 }) prs ↔ j ∈ prs) := by
    intro ids
    induction ids with
    | nil => exact fun prs _ => Iff.rfl
    | cons i ids ih =>
      intro prs hids
      rw [foldl_cons]
      split
      · exact ih prs fun i' hi' => hids i' (by simp [hi'])
      · have hi : i ∈ prs := hids i (by simp)
        rw [ih, mem_insert_of_mem hi]
        intro i' hi'
        rw [mem_insert_of_mem hi]
        exact hids i' (by simp [hi'])
  exact hfold _ _ fun i hi => mem_keys.2 hi

/-- Most actions change no field of the frame; the others set a role, a term or a progress. -/
lemma Action.frame (ha : Action m r r') : Frame m r r' := by
  have hprs : ∀ j, j ∈ r.prs ↔ j ∈ r.prs := fun _ => Iff.rfl
  cases ha with
  | aux | commit | voteRequest | heartbeat | sendAppend | accept | refuse | learn | forward
  | readResp | readSingle | grant | answerVote | addRead | ackRead | release =>
    exact .of_eq hprs rfl
  | follow t lead ht =>
    refine ⟨⟨rfl, hprs, fun h => ⟨rfl, h.checkQuorum⟩⟩, fun hm => ?_, nofun⟩
    rw [becomeFollower_term]
    rcases ht with ⟨-, hlt, -⟩ | ⟨rfl, -⟩ | ⟨-, h0, hb⟩
    · exact hlt.le
    · exact le_rfl
    · have := hm hb
      omega
  | preCandidate => exact ⟨⟨rfl, hprs, fun h => ⟨rfl, h.checkQuorum⟩⟩, fun _ => le_rfl, nofun⟩
  | candidate =>
    refine ⟨⟨rfl, hprs, fun h => ⟨rfl, h.checkQuorum⟩⟩, fun _ => ?_, nofun⟩
    rw [asCandidate_term]
    omega
  | pollSelf | pollResp =>
    rw [poll_eq]
    exact .of_eq hprs rfl
  | lead hset =>
    refine ⟨⟨rfl, mem_resetProgress r _, fun h => ⟨rfl, h.checkQuorum⟩⟩, fun _ => ?_,
      fun _ => .inl hset⟩
    rw [asLeader_term]
  | append xs _ _ _ _ hx =>
    obtain ⟨l, pr, -, hpr, rfl⟩ := extendLog_eq_ok hx
    have hmem : r.id ∈ r.prs := lookup_isSome.1 (by rw [hpr]; rfl)
    exact .of_eq (mem_insert_of_mem hmem _) rfl
  | progress pr _ _ _ hpr =>
    have hmem : m.fromID ∈ r.prs := lookup_isSome.1 (by rw [hpr]; rfl)
    exact .of_eq (mem_insert_of_mem hmem _) rfl

lemma Action.term_le (ha : Action m r r') (hm : m.type = .msgHeartbeat → 1 ≤ m.term) :
    r.term ≤ r'.term := ha.frame.term_le hm

lemma Action.settled (ha : Action m r r') (h : Settled m r) : Settled m r' := by
  rcases Nat.eq_zero_or_pos m.term with h0 | hpos
  · exact .inl (h0.trans_le (Nat.zero_le _))
  · exact h.imp_left fun hle => hle.trans (ha.term_le fun _ => hpos)

lemma Actions.settled (ha : Actions m r r') (h : Settled m r) : Settled m r' :=
  ha.invariant (fun _ _ hlast => hlast.settled) h

lemma Actions.kept (h : Actions m r r') : Kept r r' :=
  h.invariant (P := Kept r) (fun _ _ ha hk => hk.trans ha.frame.kept) (Kept.refl r)

end Frame

/-! ## A step is a sequence of actions -/

/-- A condition on nodes that secures the reactions to `m`: the actions keep it, and the calls
that may fail return under it. -/
structure Secures (m : Message) (G : Raft → Prop) : Prop where
  action : ∀ {r r'}, Action m r r' → G r → G r'
  entries_ne : ∀ {r}, G r → m.type = .msgProp ∨ m.type = .msgReadIndex ∨
    m.type = .msgReadIndexResp → m.entries ≠ []
  fromID_ne : ∀ {r}, G r → m.type = .msgAppResp → m.fromID ≠ r.id
  sendAppend : ∀ {r id}, G r → r.state = .leader → id ∈ r.prs → id ≠ r.id →
    Succeeds (r.sendAppend id)
  maybeCommit : ∀ {r}, G r → Succeeds r.maybeCommit
  extendLog : ∀ {r xs}, G r → xs ≠ [] →
    Succeeds ({ r with pendingConf := (filterConf r.pendingConf xs).2 }.extendLog
      (filterConf r.pendingConf xs).1)
  slice : ∀ {r}, G r →
    Succeeds (r.raftLog.slice (r.raftLog.applyIndex + 1) (r.raftLog.commitIndex + 1))
  lastTerm : ∀ {r}, G r → Succeeds r.raftLog.lastTerm
  commitTerm : ∀ {r}, G r →
    Succeeds (RaftLog.zeroTermOnErrCompacted (r.raftLog.term r.raftLog.commitIndex))
  handleVote : ∀ {r}, G r → Succeeds (r.handleVote m)
  handleAppendEntries : ∀ {r}, G r → m.type = .msgApp → Current m r →
    Succeeds (r.handleAppendEntries m)
  handleHeartbeat : ∀ {r}, G r → Succeeds (r.handleHeartbeat m)
  handleHeartbeatResp : ∀ {r}, G r → Succeeds (r.handleHeartbeatResp m)

section Step

variable {m : Message} {r s : Raft} {G : Raft → Prop} {ctx : Bytes} {typ : CampaignType}

/-- Nothing has to return for the condition that no node meets. -/
lemma secures_false (m : Message) : Secures m fun _ => False := by
  constructor <;> intros <;> contradiction

lemma sendAppend_action {r' : Raft} {id : ℕ} (hr' : r.sendAppend id = .ok r')
    (h : r.state = .leader) (hid : id ≠ r.id ∨ id = m.fromID ∧ m.type = .msgAppResp) :
    Action m r r' ∧ r'.state = .leader := by
  unfold sendAppend at hr'
  split at hr'
  · cases hr'
  · rename_i pr hpr
    obtain ⟨es, hes, hr'⟩ := bind_eq_ok.1 hr'
    cases hr'
    exact ⟨.sendAppend id h hid hpr hes, h⟩

lemma handleAppendEntries_action {r' : Raft} (hr' : r.handleAppendEntries m = .ok r')
    (h : r.state = .follower) (hm : m.type = .msgApp) (hcur : Current m r) : Action m r r' := by
  obtain ⟨o, ho, hr'⟩ := bind_eq_ok.1 hr'
  rcases o with - | ⟨l, k⟩
  · cases hr'
    exact .refuse h hm hcur
  · cases hr'
    exact .accept h hm hcur ho

lemma handleHeartbeat_action {r' : Raft} (hr' : r.handleHeartbeat m = .ok r')
    (h : r.state = .follower) (hm : m.type = .msgHeartbeat) (hcur : Current m r) :
    Action m r r' := by
  obtain ⟨l, hl, hr'⟩ := bind_eq_ok.1 hr'
  cases hr'
  exact .learn h hm hcur hl

/-- A vote is granted in the term of the node only, and then it is the first one or the same
one. -/
lemma handleVote_action (hm : m.type = .msgVote ∧ Current m r ∨ m.type = .msgPreVote)
    (hterm : m.term = 0 ∨ r.term ≤ m.term) : Ensures (r.handleVote m) (Action m r) := by
  have hm' : m.type = .msgVote ∨ m.type = .msgPreVote := hm.imp_left And.left
  intro r' hr'
  obtain ⟨u, hup, ⟨rfl, hfree, hvote, rfl⟩ | rfl | rfl | rfl⟩ := handleVote_ensures r m r' hr'
  · have hcur : Current m r := hm.elim And.right fun hpre => by simp [hvote] at hpre
    refine .grant hvote hcur ?_ hup
    rcases hfree with hfree | hgt | hfree
    · exact .inl hfree
    · rcases hcur with hcur | hcur <;> omega
    · exact .inr hfree
  · exact .answerVote _ hm' hterm rfl rfl (.inl rfl)
  · exact .answerVote _ hm' hterm rfl rfl (.inr ⟨rfl, rfl⟩)
  · exact .answerVote _ hm' hterm rfl rfl (.inl rfl)

lemma handleHeartbeatResp_actions (h : r.state = .leader) (hm : m.type = .msgHeartbeatResp)
    (hcur : Current m r) : Ensures (r.handleHeartbeatResp m) (Actions m r) := by
  intro r' hr'
  rcases handleHeartbeatResp_ensures r m r' hr' with rfl | rfl |
    ⟨-, ro, rss, hadv, states, ms, rfl, -, hms⟩
  · exact Actions.refl
  · exact Actions.single (.ackRead h hm hcur)
  · exact Actions.single (.release states ms h hm hcur hadv hms)

lemma broadcastHeartbeatWithCtx_actions {g : Prop} (h : r.state = .leader)
    (hctx : ctx = [] ∨ m.type = .msgReadIndex ∧ ctx ∈ r.readOnly.readIndexQueue) :
    Guarded g (r.broadcastHeartbeatWithCtx ctx) (Actions m r) := by
  refine (Guarded.foldlM (I := fun s => Actions m r s ∧ s.state = .leader ∧
    s.readOnly = r.readOnly) ⟨Actions.refl, h, rfl⟩ ?_).mono fun _ hs => hs.1
  rintro id hid s ⟨hact, hl, hro⟩
  split_ifs with hne
  · exact .ok ⟨hact, hl, hro⟩
  · have hmem := (hact.kept.mem_prs id).2 (mem_keys.2 hid)
    obtain ⟨pr, hpr⟩ := Option.isSome_iff_exists.1 (lookup_isSome.2 hmem)
    unfold sendHeartbeat
    rw [hpr]
    exact .ok ⟨hact.tail (.heartbeat id ctx hl hne (by rwa [hro]) hpr), hl, hro⟩

lemma becomeCampaigner_actions {g : Prop} (ht : m.type.mayElect = true) (hl : r.state ≠ .leader)
    (typ : CampaignType) :
    Guarded g (becomeCampaigner typ r) fun r' => Actions m r r' ∧ r'.state = typ.role := by
  cases typ with
  | preElection =>
    change Guarded g r.becomePreCandidate _
    unfold becomePreCandidate
    rw [if_neg hl]
    exact .ok ⟨Actions.single (.preCandidate hl ht), rfl⟩
  | election =>
    change Guarded g r.becomeCandidate _
    unfold becomeCandidate
    rw [if_neg hl]
    exact .ok ⟨Actions.single (.candidate hl ht), rfl⟩

/-- A follower hears of its leader. -/
lemma aux_lead (hcur : Current m r) (hm : m.type.isLeaders = true) :
    Action m r { r with electionElapsed := 0, lead := m.fromID } :=
  .aux m.fromID 0 r.heartbeatElapsed r.randomizedElectionTimeout r.rand (.inr ⟨rfl, hcur, hm⟩)

lemma candidate_of_ne (hf : r.state ≠ .follower) (hl : r.state ≠ .leader)
    (hpre : r.state ≠ .preCandidate) : r.state = .candidate := by
  cases hs : r.state with
  | follower => exact absurd hs hf
  | candidate => rfl
  | leader => exact absurd hs hl
  | preCandidate => exact absurd hs hpre

lemma mayElect_of_voteRespType (hm : m.type = r.voteRespType) : m.type.mayElect = true := by
  rw [hm, voteRespType]
  split <;> rfl

/-- A candidate gives way to the leader of its term that sends it entries. -/
lemma follow_of_app (hl : r.state ≠ .leader) (hm : m.type = .msgApp) (hcur : Current m r) :
    Action m r (r.becomeFollower r.term m.fromID) := by
  have hlead : m.type.isLeaders = true := by rw [hm]; rfl
  refine .follow r.term m.fromID (.inr (.inl ⟨rfl, hl⟩)) (.inr ⟨rfl, hcur, .inl hlead⟩) ?_
  simp [MessageType.isPassedOn_of_isLeaders hlead]

/-- A candidate gives way to the leader of its term that sends it a heartbeat. -/
lemma follow_of_heartbeat (hl : r.state ≠ .leader) (hm : m.type = .msgHeartbeat)
    (hcur : Current m r) : Action m r (r.becomeFollower m.term m.fromID) := by
  have hlead : m.type.isLeaders = true := by rw [hm]; rfl
  refine .follow m.term m.fromID ?_ (.inr ⟨rfl, .inr rfl, .inl hlead⟩) ?_
  · rcases hcur with h0 | heq
    · exact .inr (.inr ⟨h0, h0, hm⟩)
    · exact .inr (.inl ⟨heq, hl⟩)
  · simp [MessageType.isPassedOn_of_isLeaders hlead]

variable (hG : Secures m G)
include hG

lemma Secures.actions {r' : Raft} (ha : Actions m r r') (h : G r) : G r' :=
  ha.invariant (fun _ _ hlast => hG.action hlast) h

/-- A part of a reaction, seen from its start. -/
lemma Secures.after {r₁ : Raft} {x : Go Raft} (ha : Actions m r r₁)
    (h : Guarded (G r₁) x (Actions m r₁)) : Guarded (G r) x (Actions m r) :=
  (h.of_imp (hG.actions ha)).mono fun _ hr' => ha.trans hr'

lemma broadcastAppend_actions (h : r.state = .leader) :
    Guarded (G r) r.broadcastAppend (Actions m r) := by
  refine (Guarded.foldlM (I := fun s => Actions m r s ∧ s.state = .leader) ⟨Actions.refl, h⟩
    fun id hid s hs => ?_).mono fun _ hs => hs.1
  split_ifs with hne
  · exact .ok hs
  · have hmem := (hs.1.kept.mem_prs id).2 (mem_keys.2 hid)
    refine (Guarded.call fun hg => hG.sendAppend (hG.actions hs.1 hg) hs.2 hmem hne).mono
      fun s' hs' => ?_
    exact (sendAppend_action hs' hs.2 (.inl hne)).imp_left hs.1.tail

lemma maybeCommit_actions (ht : m.type ≠ .msgReadIndex) (h : r.state = .leader) :
    Guarded (G r) r.maybeCommit fun p => Actions m r p.1 ∧ p.1.state = .leader := by
  refine (Guarded.call hG.maybeCommit).mono ?_
  rintro ⟨r', b⟩ hc
  unfold maybeCommit at hc
  dsimp only at hc
  split at hc
  · cases hc
  · rename_i k hk
    obtain ⟨⟨l, b'⟩, hl, hr'⟩ := bind_eq_ok.1 hc
    cases hr'
    exact ⟨Actions.single (.commit ht h hk hl), h⟩

/-- Appending the proposed entries `xs` as leader. -/
lemma appendEntry_actions (xs : List Entry) (hm : Settled m r) (ht : m.type ≠ .msgReadIndex)
    (h : r.state = .leader) (hne : xs ≠ []) :
    Guarded (G r) ({ r with pendingConf := (filterConf r.pendingConf xs).2 }.appendEntry
      (filterConf r.pendingConf xs).1) fun r' => Actions m r r' ∧ r'.state = .leader := by
  refine (Guarded.call fun hg => hG.extendLog hg hne).bind fun r₁ hr₁ => ?_
  have hact : Actions m r r₁ := Actions.single (.append xs hm ht h hne hr₁)
  obtain ⟨l, pr, -, -, heq⟩ := extendLog_eq_ok hr₁
  have hl₁ : r₁.state = .leader := by rw [heq]; exact h
  refine ((maybeCommit_actions hG ht hl₁).of_imp (hG.actions hact)).bind fun p hp => ?_
  exact .ok ⟨hact.trans hp.1, hp.2⟩

lemma becomeLeader_actions (hm : Settled m r) (ht : m.type.mayElect = true)
    (h : r.state = .candidate) (hq : r.quorum = r.granted) :
    Guarded (G r) r.becomeLeader fun r' => Actions m r r' ∧ r'.state = .leader := by
  have hlead : Action m r r.asLeader := .lead hm ht h hq
  unfold becomeLeader
  rw [if_neg (by simp [h])]
  have happend := appendEntry_actions hG (r := r.asLeader) [{ data := [] }]
    (hlead.settled hm) (MessageType.ne_msgReadIndex_of_mayElect ht) rfl (by simp)
  exact (happend.of_imp (hG.action hlead)).mono fun r' hr' =>
    ⟨(Actions.single hlead).trans hr'.1, hr'.2⟩

/-- A campaign: the node takes its role and votes for itself. Then it has won, or the loop sends
one request after another, and the role is the invariant of the loop. -/
lemma campaignWith_actions {won : Raft → Go Raft}
    (ht : m.type.mayElect = true) (hl : r.state ≠ .leader)
    (hwon : ∀ r₁, Actions m r r₁ → r₁.state = typ.role → r₁.quorum = r₁.granted →
      Guarded (G r₁) (won r₁) (Actions m r₁)) :
    Guarded (G r) (campaignWith typ won r) (Actions m r) := by
  refine (becomeCampaigner_actions ht hl typ).bind ?_
  rintro r₁ ⟨hr₁, hrole⟩
  have hpoll : Actions m r (r₁.poll r₁.id true) := hr₁.tail (.pollSelf typ hrole)
  dsimp only
  have hrole₂ : (r₁.poll r₁.id true).state = typ.role := by
    rw [poll_eq]
    exact hrole
  split_ifs with hq
  · exact hG.after hpoll (hwon _ hpoll hrole₂ hq)
  · refine (Guarded.foldlM (I := fun s => Actions m r s ∧ s.state = typ.role)
      ⟨hpoll, hrole₂⟩ fun id hid s hs => ?_).mono fun s hs => hs.1
    have hmem : id ∈ s.prs := by
      rw [hs.1.kept.mem_prs, ← hpoll.kept.mem_prs]
      exact mem_keys.2 hid
    split_ifs with hne
    · exact .ok hs
    · refine (Guarded.call fun hg => hG.lastTerm (hG.actions hs.1 hg)).bind fun t hlast => ?_
      exact .ok ⟨hs.1.tail (.voteRequest typ _ t id hs.2 hlast hne hmem), hs.2⟩

lemma campaign_actions (hm : Settled m r) (ht : m.type.mayElect = true) (hl : r.state ≠ .leader)
    (typ : CampaignType) : Guarded (G r) (campaign typ r) (Actions m r) := by
  have helect : ∀ r₁, Settled m r₁ → r₁.state ≠ .leader →
      Guarded (G r₁) (campaignWith .election becomeLeader r₁) (Actions m r₁) :=
    fun r₁ h₁ hl₁ => campaignWith_actions hG ht hl₁ fun r₂ hr₂ hrole hq =>
      (becomeLeader_actions hG (hr₂.settled h₁) ht hrole hq).mono fun r' hr' => hr'.1
  cases typ with
  | election => exact helect r hm hl
  | preElection =>
    exact campaignWith_actions hG ht hl fun r₁ hr₁ hrole _ =>
      helect r₁ (hr₁.settled hm) (by simp [hrole, CampaignType.role])

lemma handleHup_actions (hm : Settled m r) (ht : m.type.mayElect = true) :
    Guarded (G r) r.handleHup (Actions m r) := by
  unfold handleHup
  split
  · exact .ok Actions.refl
  rename_i hl
  split
  · exact .ok Actions.refl
  refine (Guarded.call hG.slice).bind fun entries _ => ?_
  split
  · exact .ok Actions.refl
  split <;> exact campaign_actions hG hm ht hl _

/-- A follower hears of its leader before it handles a message of the leader. -/
lemma stepFollower_actions (h : r.state = .follower) (hcur : Current m r) :
    Guarded (G r) (r.stepFollower m) (Actions m r) := by
  have hheard : m.type.isLeaders = true →
      Actions m r { r with electionElapsed := 0, lead := m.fromID } :=
    fun hm => Actions.single (aux_lead hcur hm)
  unfold stepFollower
  split
  · rename_i hm
    split
    · exact .ok Actions.refl
    · rename_i hlead
      exact .ok (Actions.single (.forward (.inl hm) hlead))
  · rename_i hm
    have hact := hheard (by rw [hm]; rfl)
    exact (Guarded.call fun hg => hG.handleAppendEntries (hG.actions hact hg) hm hcur).mono
      fun r' hr' => hact.tail (handleAppendEntries_action hr' h hm hcur)
  · rename_i hm
    have hact := hheard (by rw [hm]; rfl)
    exact (Guarded.call fun hg => hG.handleHeartbeat (hG.actions hact hg)).mono
      fun r' hr' => hact.tail (handleHeartbeat_action hr' h hm hcur)
  · rename_i hm
    split
    · exact .ok Actions.refl
    · rename_i hlead
      exact .ok (Actions.single (.forward (.inr hm) hlead))
  · rename_i hm
    split
    · rename_i hnil
      exact .error _ fun hg => hG.entries_ne hg (.inr (.inr hm)) hnil
    · rename_i e es he
      exact .ok (Actions.single (.readResp e es h hm he))
  · exact .ok Actions.refl

/-- After the vote is counted, a quorum of grants leads to the election or to the lead, and one of
refusals back to a follower. -/
lemma handleVoteResp_actions (hset : Settled m r) (hm : m.type = r.voteRespType)
    (hl : r.state ≠ .leader) (hf : r.state ≠ .follower)
    (hcur : r.state = .candidate → Current m r) :
    Guarded (G r) (r.handleVoteResp m) (Actions m r) := by
  have hpoll : Actions m r (r.poll m.fromID (!m.reject)) := Actions.single (.pollResp hm hcur)
  have hstate : (r.poll m.fromID (!m.reject)).state = r.state := by rw [poll_eq]
  have ht := mayElect_of_voteRespType hm
  have hset' := hpoll.settled hset
  unfold handleVoteResp
  dsimp only
  split
  · rename_i hq
    split
    · exact hG.after hpoll (campaign_actions hG hset' ht (hstate ▸ hl) .election)
    · rename_i hpre
      have hcand := candidate_of_ne (hstate ▸ hf) (hstate ▸ hl) hpre
      refine ((becomeLeader_actions hG hset' ht hcand hq).of_imp (hG.actions hpoll)).bind
        fun r₁ hr₁ => ?_
      exact hG.after (hpoll.trans hr₁.1) (broadcastAppend_actions hG hr₁.2)
  · split
    · refine .ok (hpoll.tail (.follow _ _ (.inr (.inl ⟨rfl, by rwa [hstate]⟩)) (.inl rfl) ?_))
      simp [MessageType.isPassedOn_of_mayElect ht]
    · exact .ok hpoll

/-- A candidate follows the leader of its term first, and then handles its message. -/
lemma stepCandidate_actions (hset : Settled m r) (hl : r.state ≠ .leader)
    (hf : r.state ≠ .follower) (hcur : m.type ≠ .msgPreVoteResp → Current m r) :
    Guarded (G r) (r.stepCandidate m) (Actions m r) := by
  unfold stepCandidate
  split
  · exact .ok Actions.refl
  · rename_i hm
    have hfollow := follow_of_app hl hm (hcur (by simp [hm]))
    have hc : Current m (r.becomeFollower r.term m.fromID) := by
      rw [Current, becomeFollower_term]
      exact hcur (by simp [hm])
    exact (Guarded.call fun hg => hG.handleAppendEntries (hG.action hfollow hg) hm hc).mono
      fun r' hr' => (Actions.single hfollow).tail (handleAppendEntries_action hr' rfl hm hc)
  · rename_i hm
    have hfollow := follow_of_heartbeat hl hm (hcur (by simp [hm]))
    refine (Guarded.call fun hg => hG.handleHeartbeat (hG.action hfollow hg)).mono fun r' hr' =>
      (Actions.single hfollow).tail (handleHeartbeat_action hr' rfl hm (.inr ?_))
    rw [becomeFollower_term]
  · split_ifs with hm
    · refine handleVoteResp_actions hG hset hm hl hf fun hcand => hcur ?_
      rw [hm, voteRespType, hcand]
      decide
    · exact .ok Actions.refl

lemma handleProp_actions (hset : Settled m r) (hm : m.type = .msgProp) (h : r.state = .leader) :
    Guarded (G r) (r.handleProp m) (Actions m r) := by
  unfold handleProp
  split
  · rename_i hnil
    exact .error _ fun hg => hG.entries_ne hg (.inl hm) (length_eq_zero_iff.1 hnil)
  split
  · exact .ok Actions.refl
  · rename_i hne _
    have hne' : m.entries ≠ [] := by
      rintro heq
      exact hne (by rw [heq]; rfl)
    refine (appendEntry_actions hG m.entries hset (by simp [hm]) h hne').bind fun r₁ hr₁ => ?_
    exact hG.after hr₁.1 (broadcastAppend_actions hG hr₁.2)

/-- A leader among others keeps a new read and asks with a heartbeat; a repeated one changes
nothing; a single node answers at once. -/
lemma handleReadIndex_actions (h : r.state = .leader) (hm : m.type = .msgReadIndex) :
    Guarded (G r) (r.handleReadIndex m) (Actions m r) := by
  have hempty : m.entries = [] → ¬G r := fun hnil hg => hG.entries_ne hg (.inr (.inl hm)) hnil
  unfold handleReadIndex
  split
  · exact .ok Actions.refl
  rename_i hself
  split
  · rename_i hmany
    refine (Guarded.call hG.commitTerm).bind fun t ht => ?_
    split_ifs with hterm
    · exact .ok Actions.refl
    split
    · exact .error _ (hempty ‹_›)
    rename_i e es he
    have hterm' : t = r.term := not_not.1 hterm
    by_cases hnew : e.data ∈ r.readOnly.pendingReadIndex
    · have hadd : r.readOnly.addRequest e.data r.raftLog.commitIndex m =
          (r.readOnly, false) := by
        unfold ReadOnly.addRequest
        rw [if_pos hnew]
      rw [hadd]
      exact .ok Actions.refl
    · have hact : Action m r { r with
          readOnly := (r.readOnly.addRequest e.data r.raftLog.commitIndex m).1 } :=
        .addRead e es h hm he (hterm' ▸ ht) hmany hnew
      have hadd : r.readOnly.addRequest e.data r.raftLog.commitIndex m =
          ((r.readOnly.addRequest e.data r.raftLog.commitIndex m).1, true) := by
        unfold ReadOnly.addRequest
        rw [if_neg hnew]
      rw [hadd]
      refine Guarded.mono (broadcastHeartbeatWithCtx_actions (m := m) h (.inr ⟨hm, ?_⟩))
        fun r' hr' => (Actions.single hact).trans hr'
      exact ReadOnly.mem_queue_of_added (by rw [hadd])
  · rename_i hone
    split
    · exact .error _ (hempty ‹_›)
    · rename_i e es he
      exact .ok (Actions.single (.readSingle e es h hm he ⟨not_not.1 hself, not_lt.1 hone⟩))

lemma handleAppResp_actions {pr : Progress} (h : r.state = .leader) (hm : m.type = .msgAppResp)
    (hcur : Current m r) (hpr : r.prs.lookup m.fromID = some pr) :
    Guarded (G r) (r.handleAppResp m pr) (Actions m r) := by
  have hact := Actions.single (Action.progress pr h hm hcur hpr)
  unfold handleAppResp
  unfold respond at hact
  split
  · rename_i hrej
    rw [if_pos hrej] at hact
    dsimp only
    split
    · -- the answer comes from another node
      refine (Guarded.call fun hg => ?_).mono fun r' hr' =>
        hact.tail (sendAppend_action hr' h (.inr ⟨rfl, hm⟩)).1
      have hg' := hG.actions hact hg
      exact hG.sendAppend hg' h ((mem_insert _).2 (.inl rfl)) (hG.fromID_ne hg' hm)
    · exact .ok hact
  · rename_i hrej
    rw [if_neg hrej] at hact
    dsimp only
    split
    · refine Guarded.bind (.of_imp (maybeCommit_actions hG (by simp [hm]) h) (hG.actions hact))
        fun p hp => ?_
      have hact' := hact.trans hp.1
      split
      · exact hG.after hact' (broadcastAppend_actions hG hp.2)
      · exact .ok hact'
    · exact .ok hact

lemma stepLeader_actions (hset : Settled m r) (h : r.state = .leader)
    (hcur : m.type ≠ .msgPreVoteResp → Current m r) :
    Guarded (G r) (r.stepLeader m) (Actions m r) := by
  unfold stepLeader
  split
  · exact broadcastHeartbeatWithCtx_actions h (.inl rfl)
  · rename_i hm
    exact handleProp_actions hG hset hm h
  · rename_i hm
    exact handleReadIndex_actions hG h hm
  · split
    · exact .ok Actions.refl
    · rename_i pr hpr
      split
      · rename_i hm
        exact handleAppResp_actions hG h hm (hcur (by simp [hm])) hpr
      · rename_i hm
        exact (Guarded.call hG.handleHeartbeatResp).mono
          (handleHeartbeatResp_actions h hm (hcur (by simp [hm])))
      · exact .ok Actions.refl

/-- The second switch of `Step`. The step function is that of the role. -/
lemma stepType_actions (hr : r.Sane) (hset : Settled m r) (hge : m.term = 0 ∨ r.term ≤ m.term)
    (hcur : m.type ≠ .msgPreVote → m.type ≠ .msgPreVoteResp → Current m r) :
    Guarded (G r) (r.stepType m) (Actions m r) := by
  unfold stepType
  split
  · rename_i hm
    exact handleHup_actions hG hset (by rw [hm]; rfl)
  · rename_i hm
    have hvote := handleVote_action (.inl ⟨hm, hcur (by simp [hm]) (by simp [hm])⟩) hge
    exact (Guarded.call hG.handleVote).mono fun r' hr' => Actions.single (hvote r' hr')
  · rename_i hm
    exact (Guarded.call hG.handleVote).mono fun r' hr' =>
      Actions.single (handleVote_action (.inr hm) hge r' hr')
  · rename_i hm
    have hstep := hr.stepFunc
    cases hs : r.state with
    | follower =>
      rw [hs] at hstep
      rw [hstep]
      by_cases hpre : m.type = .msgPreVoteResp
      · unfold stepFollower
        rw [hpre]
        exact .ok Actions.refl
      · exact stepFollower_actions hG hs (hcur hm hpre)
    | candidate | preCandidate =>
      rw [hs] at hstep
      rw [hstep]
      exact stepCandidate_actions hG hset (by simp [hs]) (by simp [hs]) (hcur hm)
    | leader =>
      rw [hs] at hstep
      rw [hstep]
      exact stepLeader_actions hG hset hs (hcur hm)

omit hG in
/-- `Step` drops the message, or it comes to its second switch in a state that has taken note
of the message's term. -/
lemma step_eq (hr : r.Sane) : r.step m = .ok r ∨ ∃ r₁, Actions m r r₁ ∧ r₁.Sane ∧
    Settled m r₁ ∧ (m.term = 0 ∨ r₁.term ≤ m.term) ∧
    (m.type ≠ .msgPreVote → m.type ≠ .msgPreVoteResp → Current m r₁) ∧
    r.step m = r₁.stepType m := by
  unfold step
  split
  · rename_i h0
    exact .inr ⟨r, Actions.refl, hr, .inl (h0.trans_le (Nat.zero_le _)), .inl h0,
      fun _ _ => .inl h0, rfl⟩
  split
  · rename_i hgt
    unfold observeTerm
    dsimp only
    split
    · rename_i hadopt
      have hns : ¬ Settled m r := by
        rintro (hle | hpre | ⟨hpre, hrej⟩)
        · omega
        · exact hadopt.1 hpre
        · simp [hpre, hrej] at hadopt
      refine .inr ⟨_, Actions.single (.follow m.term _ (.inl ⟨rfl, hgt, hns⟩) ?_
        fun _ => hgt), ⟨rfl, hr.checkQuorum⟩, .inl ?_, .inr ?_, fun _ _ => .inr ?_, rfl⟩
      · split
        · exact .inl rfl
        · rename_i hvote
          exact .inr ⟨rfl, .inr rfl, .inr ⟨hgt, fun h => hvote (.inl h)⟩⟩
      all_goals rw [becomeFollower_term]
    · rename_i hpre
      refine .inr ⟨r, Actions.refl, hr, .inr ?_, .inr hgt.le, fun h1 h2 => ?_, rfl⟩
      · by_cases h1 : m.type = .msgPreVote
        · exact .inl h1
        · have h2 : ¬ (m.type ≠ .msgPreVoteResp ∨ m.reject = true) := fun h => hpre ⟨h1, h⟩
          rw [not_or, not_not, Bool.not_eq_true] at h2
          exact .inr h2
      · exact absurd ⟨h1, .inl h2⟩ hpre
  split
  · rw [if_neg (by simp [hr.checkQuorum])]
    exact .inl rfl
  · rename_i h1 h2
    exact .inr ⟨r, Actions.refl, hr, .inl (not_lt.1 h1), .inr (not_lt.1 h2),
      fun _ _ => .inr (by omega), rfl⟩

/-- **A step is a sequence of actions**, and under a condition that secures the reactions it
returns. -/
lemma step_guarded (hr : r.Sane) : Guarded (G r) (r.step m) (Actions m r) := by
  rcases step_eq (m := m) hr with heq | ⟨r₁, hr₁, hsane, hset, hge, hcur, heq⟩
  · rw [heq]
    exact .ok Actions.refl
  · rw [heq]
    exact hG.after hr₁ (stepType_actions hG hsane hset hge hcur)

omit hG

theorem step_actions (hr : r.Sane) : Ensures (r.step m) (Actions m r) :=
  (step_guarded (secures_false m) hr).ensures

/-- A tick moves a timer, and it may step a local message then. -/
lemma tick_eq (hr : r.Sane) : ∃ (m : Message) (r₁ : Raft),
    (m.type = .msgHup ∨ m.type = .msgBeat) ∧ m.term = 0 ∧ Actions m r r₁ ∧ r₁.Sane ∧
      (r.tick = .ok r₁ ∨ r.tick = r₁.step m) := by
  have haux : ∀ (m : Message) (e h : Int32), Actions m r { r with electionElapsed := e
                                                                  heartbeatElapsed := h } :=
    fun m e h => Actions.single
      (.aux r.lead e h r.randomizedElectionTimeout r.rand (.inl rfl))
  unfold tick
  split
  · unfold tickElection
    dsimp only
    split
    · exact ⟨{ fromID := r.id, type := .msgHup }, _, .inl rfl, rfl,
        haux _ 0 r.heartbeatElapsed, ⟨hr.stepFunc, hr.checkQuorum⟩, .inr rfl⟩
    · exact ⟨{ type := .msgHup }, _, .inl rfl, rfl,
        haux _ (r.electionElapsed + 1) r.heartbeatElapsed, ⟨hr.stepFunc, hr.checkQuorum⟩,
        .inl rfl⟩
  · unfold tickHeartbeat
    split
    · exact ⟨{ type := .msgBeat }, r, .inr rfl, rfl, Actions.refl, hr, .inl rfl⟩
    · dsimp only
      split
      · exact ⟨{ fromID := r.id, type := .msgBeat }, _, .inr rfl, rfl,
          haux _ r.electionElapsed 0, ⟨hr.stepFunc, hr.checkQuorum⟩, .inr rfl⟩
      · exact ⟨{ type := .msgBeat }, _, .inr rfl, rfl,
          haux _ r.electionElapsed (r.heartbeatElapsed + 1), ⟨hr.stepFunc, hr.checkQuorum⟩,
          .inl rfl⟩

/-- **A tick is a sequence of actions**, of a node that reacts to a local message. -/
theorem tick_actions (hr : r.Sane) :
    Ensures r.tick fun r' => ∃ m, (m.type = .msgHup ∨ m.type = .msgBeat) ∧ m.term = 0 ∧
      Actions m r r' := by
  obtain ⟨m, r₁, hm, h0, hr₁, hsane, heq | heq⟩ := tick_eq hr
  · rw [heq]
    exact .ok ⟨m, hm, h0, hr₁⟩
  · rw [heq]
    exact (step_actions hsane).mono fun r' hr' => ⟨m, hm, h0, hr₁.trans hr'⟩

end Step

end Raft

end Yukino.Replica
