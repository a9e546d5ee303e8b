import Yukino.Lib.Tally
import Yukino.Lib.Consensus.Safety
import Yukino.Raft.Delivery

set_option autoImplicit false

/-!
# The nodes implement the replication protocol

In a cluster with fixed membership and without restarts, every action of a node is a
sequence of actions of the abstract protocol `Consensus.Step`, and every message states a
fact about the history of the protocol that stays true. This is a forward simulation with
the history of all terms as the abstract state.

## Main definitions

* `Message.Ok` — what a message says about the history.
* `Raft.Refines` — the state of a node and the abstract state agree.

## Main results

* `Raft.Action.reaches` — an action of a node is a sequence of abstract actions.
-/

namespace Yukino.Replica

open Consensus Outcome List Function AList Option

/-- The abstract state: the logs of all nodes and the history of all terms. -/
abbrev History := State ℕ Entry

/-- The invariant of the protocol, and what the model adds to it: terms start with `1`, and
the entries of a leader's log are numbered from `1`. -/
structure Sound (ids : Finset ℕ) (a : History) : Prop where
  inv : Inv (QuorumSystem.majority ids) a
  elected_pos : ∀ t, a.elected t ≠ none → 1 ≤ t
  consec : ∀ t, Consec 1 (a.llog t)

variable {ids : Finset ℕ} {a b : History} {l : List Entry} {m : Message}

lemma Sound.term_pos (h : Sound ids a) (hl : LogOk a l) : ∀ e ∈ l, 0 < e.term := by
  intro e he
  obtain ⟨k, hk⟩ := mem_iff_getElem?.mp he
  exact h.elected_pos _ (hl k e hk).1

/-- The entries of a prefix of a leader's log are numbered from `1`. -/
lemma Sound.termAt_pos (h : Sound ids a)
    (hl : LogOk a l) {k : ℕ} (hk : 0 < k) (hlen : k ≤ l.length) : 0 < termAt l k := by
  obtain ⟨e, he, ht⟩ := exists_getElem?_of_le hk hlen
  rw [ht]
  exact h.term_pos hl e (mem_of_getElem? he)

/-- An action that elects nobody and leaves the leaders' logs as they are. -/
lemma Sound.step {i : ℕ} (h : Sound ids a)
    (hstep : Step (QuorumSystem.majority ids) a i b) (hel : b.elected = a.elected)
    (hllog : b.llog = a.llog) : Sound ids b :=
  ⟨h.inv.step hstep, hel ▸ h.elected_pos, hllog ▸ h.consec⟩

/-! ## Messages -/

/-- What a message says about the history. -/
structure Message.Ok (ids : Finset ℕ) (a : History) (m : Message) : Prop where
  term_pos : m.type.isLocal = false → 1 ≤ m.term
  /-- A candidate asks for votes with the log it stood for election with. -/
  vote : m.type = .msgVote → m.fromID ∈ ids ∧ m.term ≤ a.term m.fromID ∧
    m.logIndex = (a.clog m.fromID m.term).length ∧ m.logTerm = lastTerm (a.clog m.fromID m.term)
  voteResp : m.type = .msgVoteResp → m.reject = false →
    m.fromID ∈ ids ∧ a.voted m.fromID m.term = some m.toID
  /-- A leader sends a fragment of its log. -/
  app : m.type = .msgApp → a.elected m.term = some m.fromID ∧ m.fromID ≠ m.toID ∧
    m.logIndex + m.entries.length ≤ (a.llog m.term).length ∧
    m.logTerm = termAt (a.llog m.term) m.logIndex ∧
    m.entries = ((a.llog m.term).drop m.logIndex).take m.entries.length ∧
    Known a m.term m.commitIndex
  appResp : m.type = .msgAppResp → m.fromID ≠ m.toID ∧
    (m.reject = false → m.logIndex ≤ a.acked m.fromID m.term)
  heartbeat : m.type = .msgHeartbeat → m.commitIndex ≤ a.acked m.toID m.term ∧
    Known a m.term m.commitIndex

/-- A fragment of a list that grows stays where it is. -/
lemma fragment_of_isPrefix {α : Type} {l l' : List α} (h : l <+: l') {p n : ℕ}
    (hpn : p + n ≤ l.length) : (l'.drop p).take n = (l.drop p).take n := by
  obtain ⟨s, rfl⟩ := h
  rw [drop_append_of_le_length (by omega), take_append_of_le_length]
  rw [length_drop]
  omega

/-- What a message says stays true. -/
lemma Message.Ok.mono (h : m.Ok ids a) (hs : Sound ids a) (hab : Extends a b) : m.Ok ids b where
  term_pos := h.term_pos
  vote ht := by
    obtain ⟨h1, h2, h3, h4⟩ := h.vote ht
    rw [hab.clog _ _ h2]
    exact ⟨h1, h2.trans (hab.term _), h3, h4⟩
  voteResp ht hr := ⟨(h.voteResp ht hr).1, hab.voted _ _ _ (h.voteResp ht hr).2⟩
  app ht := by
    obtain ⟨h1, h2, h3, h4, h5, h6⟩ := h.app ht
    refine ⟨hab.elected _ _ h1, h2, h3.trans (hab.llog _).length_le, ?_, ?_, h6.mono hs.inv hab⟩
    · rw [h4]
      exact termAt_of_isPrefix (hab.llog _) (by omega)
    · rw [fragment_of_isPrefix (hab.llog _) h3]
      exact h5
  appResp ht := ⟨(h.appResp ht).1, fun hr => ((h.appResp ht).2 hr).trans (hab.acked _ _)⟩
  heartbeat ht := ⟨(h.heartbeat ht).1.trans (hab.acked _ _), (h.heartbeat ht).2.mono hs.inv hab⟩

/-- A local message says nothing about the history. -/
lemma Message.ok_of_isLocal (h : m.type.isLocal = true) : m.Ok ids a where
  term_pos ht := by simp [h] at ht
  vote ht := by simp [ht, MessageType.isLocal] at h
  voteResp ht := by simp [ht, MessageType.isLocal] at h
  app ht := by simp [ht, MessageType.isLocal] at h
  appResp ht := by simp [ht, MessageType.isLocal] at h
  heartbeat ht := by simp [ht, MessageType.isLocal] at h

/-- Node `i` can react to the message: it says the truth, and if it is not local it is
addressed to the node. -/
structure Message.OkFor (ids : Finset ℕ) (a : History) (i : ℕ) (m : Message) : Prop where
  ok : m.Ok ids a
  toID : m.type.isLocal = false → m.toID = i

namespace Raft

/-! ## Nodes -/

/-- The state of node `i` agrees with the abstract state. -/
structure Refines (ids : Finset ℕ) (a : History) (i : ℕ) (r : Raft) : Prop where
  self : i ∈ ids
  id : r.id = i
  mem_prs : ∀ j, j ∈ r.prs ↔ j ∈ ids
  term : a.term i = r.term
  voted : a.voted i r.term = if r.vote = noneID then none else some r.vote
  log : a.log i = r.raftLog.abs
  commit : a.commit i = r.raftLog.commitIndex
  dummy : ∀ e, r.raftLog.storage.entries[0]? = some e → e.term = 0
  leader : r.state = .leader ↔ a.elected r.term = some i
  candidate : r.state = .candidate → r.vote = i ∧ a.clog i r.term = r.raftLog.abs ∧
    ∀ v, r.votes.lookup v = some true → v ∈ ids ∧ a.voted v r.term = some i
  /-- What a leader believes of the other nodes. -/
  progress : r.state = .leader → ∀ j pr, j ≠ i → r.prs.lookup j = some pr →
    pr.matchIndex ≤ a.acked j r.term ∧ 1 ≤ pr.next ∧ pr.next ≤ r.raftLog.abs.length + 1
  /-- A leader has acknowledged its own entries. -/
  own : r.state = .leader → ∀ k, termAt r.raftLog.abs k = r.term → k ≤ a.acked i r.term
  msgs : ∀ m ∈ r.msgs, m.Ok ids a

/-- The progress of the other nodes after an election. -/
lemma lookup_resetProgress (r : Raft) (k : ℕ) {j : ℕ} (hj : j ≠ r.id) :
    (r.resetProgress k).lookup j = if j ∈ r.prs then some { next := k + 1 } else none := by
  have hfold : ∀ (ids : List ℕ) (prs : AList fun _ : ℕ => Progress),
      (ids.foldl (fun prs id => if id = r.id then prs
        else prs.insert id { next := k + 1 }) prs).lookup j =
      if j ∈ ids then some { next := k + 1 } else prs.lookup j := by
    intro ids
    induction ids with
    | nil => exact fun prs => by simp
    | cons id ids ih =>
      intro prs
      rw [foldl_cons, ih]
      by_cases hmem : j ∈ ids
      · rw [if_pos hmem, if_pos (by simp [hmem])]
      · rw [if_neg hmem]
        rcases eq_or_ne j id with rfl | hne
        · rw [if_neg hj, lookup_insert, if_pos (by simp)]
        · have hnot : j ∉ id :: ids := by simp [hne, hmem]
          rw [if_neg hnot]
          by_cases hid : id = r.id
          · rw [if_pos hid]
          · rw [if_neg hid, lookup_insert_ne hne]
  unfold resetProgress
  rw [hfold]
  by_cases hmem : j ∈ r.prs
  · rw [if_pos (AList.mem_keys.1 hmem), if_pos hmem]
  · rw [if_neg (fun hk => hmem (AList.mem_keys.2 hk)), if_neg hmem]
    exact lookup_eq_none.2 hmem

namespace Refines

variable {ids : Finset ℕ} {a b : History} {i : ℕ} {r r' : Raft} {m : Message}

section

variable (h : r.Refines ids a i) (hs : Sound ids a)
include h hs

lemma logOk : LogOk a r.raftLog.abs :=
  h.log ▸ hs.inv.log_ok i

lemma termsOk : r.raftLog.TermsOk :=
  ⟨h.dummy, hs.term_pos (h.logOk hs)⟩

/-- The log of a leader is the log of the leader of its term. -/
lemma leader_log (hl : r.state = .leader) : r.raftLog.abs = a.llog r.term := by
  have := hs.inv.leader_log i (by rw [h.term]; exact h.leader.1 hl)
  rw [← h.log, this, h.term]

end

variable {j t id : ℕ} {m' : Message} {pr : Progress}

/-- The actions of other nodes do not matter. -/
lemma other (h : r.Refines ids a j) (hs : Sound ids a) (hab : Extends a b)
    (hsame : SameNode a b j) : r.Refines ids b j where
  self := h.self
  id := h.id
  mem_prs := h.mem_prs
  term := hsame.term.trans h.term
  voted := (hsame.voted _).trans h.voted
  log := hsame.log.trans h.log
  commit := hsame.commit.trans h.commit
  dummy := h.dummy
  leader := h.leader.trans ⟨fun hel => hab.elected _ _ hel, hsame.elected _⟩
  candidate hc := by
    obtain ⟨h1, h2, h3⟩ := h.candidate hc
    refine ⟨h1, ?_, fun v hv => ⟨(h3 v hv).1, hab.voted _ _ _ (h3 v hv).2⟩⟩
    rw [hab.clog j r.term h.term.ge]
    exact h2
  progress hl k pr hk hpr :=
    ⟨(h.progress hl k pr hk hpr).1.trans (hab.acked _ _), (h.progress hl k pr hk hpr).2⟩
  own hl k hk := (h.own hl k hk).trans (hab.acked _ _)
  msgs m hm := (h.msgs m hm).mono hs hab

/-- A change of fields that the abstract state does not see, and of the messages. -/
lemma congr (h : r.Refines ids a i) (hid : r'.id = r.id) (hprs : r'.prs = r.prs)
    (hterm : r'.term = r.term) (hvote : r'.vote = r.vote) (hlog : r'.raftLog = r.raftLog)
    (hstate : r'.state = r.state) (hvotes : r'.votes = r.votes)
    (hmsgs : ∀ m ∈ r'.msgs, m ∈ r.msgs ∨ m.Ok ids a) : r'.Refines ids a i where
  self := h.self
  id := hid.trans h.id
  mem_prs := hprs ▸ h.mem_prs
  term := h.term.trans hterm.symm
  voted := by rw [hterm, hvote]; exact h.voted
  log := by rw [hlog]; exact h.log
  commit := by rw [hlog]; exact h.commit
  dummy := by rw [hlog]; exact h.dummy
  leader := by rw [hstate, hterm]; exact h.leader
  candidate := by rw [hstate, hvote, hterm, hlog, hvotes]; exact h.candidate
  progress := by rw [hstate, hprs, hterm, hlog]; exact h.progress
  own := by rw [hstate, hterm, hlog]; exact h.own
  msgs m hm := (hmsgs m hm).elim (h.msgs m) fun hok => hok

/-- A node that is no leader gives up its role within a term. -/
lemma retire (h : Refines ids a i { r' with state := r.state, votes := r.votes })
    (hold : r.state ≠ .leader) (hlead : r'.state ≠ .leader) (hcand : r'.state ≠ .candidate) :
    r'.Refines ids a i :=
  { h with
    leader := ⟨fun hl => absurd hl hlead, fun hel => absurd (h.leader.2 hel) hold⟩
    candidate := fun hc => absurd hc hcand
    progress := fun hl => absurd hl hlead
    own := fun hl => absurd hl hlead }

/-- The node sends a message that says the truth. -/
lemma send (h : r.Refines ids a i) (hm : (r.stamp m').Ok ids a) : (r.send m').Refines ids a i := by
  refine h.congr rfl rfl rfl rfl rfl rfl rfl fun x hx => ?_
  rw [Raft.send, mem_append, mem_singleton] at hx
  rcases hx with hx | rfl
  · exact .inl hx
  · exact .inr hm

/-- Nobody has been elected in, or has voted in, a term that lies ahead. -/
lemma ahead (h : r.Refines ids a i) (hs : Sound ids a) (ht : r.term < t) :
    a.elected t ≠ some i ∧ a.voted i t = none := by
  constructor
  · intro hel
    have := hs.inv.elected_le hel
    rw [h.term] at this
    omega
  · by_contra hv
    obtain ⟨c, hc⟩ := ne_none_iff_exists'.1 hv
    have := (hs.inv.voted_le i t c hc).1
    rw [h.term] at this
    omega

/-- The node gets to `r` by actions that elect nobody and leave the leaders' logs as they are. -/
def Moves (ids : Finset ℕ) (a : History) (i : ℕ) (r : Raft) : Prop :=
  ∃ b, Steps (QuorumSystem.majority ids) i a b ∧ Sound ids b ∧ r.Refines ids b i ∧
    b.elected = a.elected ∧ b.llog = a.llog

/-- The abstract state stays as it is. -/
lemma moves (h : r.Refines ids a i) (hs : Sound ids a) : Moves ids a i r :=
  ⟨a, Relation.ReflTransGen.refl, hs, h, rfl, rfl⟩

/-- One abstract action; what the messages say stays true. -/
lemma Moves.single (hs : Sound ids a) (hstep : Step (QuorumSystem.majority ids) a i b)
    (hel : b.elected = a.elected) (hllog : b.llog = a.llog)
    (h : (∀ m : Message, m.Ok ids a → m.Ok ids b) → r.Refines ids b i) : Moves ids a i r :=
  ⟨b, Relation.ReflTransGen.single hstep, hs.step hstep hel hllog,
    h fun _ hm => hm.mono hs (extends_of_step hs.inv hstep), hel, hllog⟩

section

variable (h : r.Refines ids a i)
include h

/-- The node enters a higher term as a follower. -/
lemma adopt (hs : Sound ids a) (lead : ℕ) (ht : r.term < t) :
    Moves ids a i (r.becomeFollower t lead) := by
  obtain ⟨hel, hvoted⟩ := h.ahead hs ht
  have hvote : (r.becomeFollower t lead).vote = noneID := by
    rw [becomeFollower_vote, if_pos (by omega)]
  refine .single hs (Step.adopt t (h.term ▸ ht)) rfl rfl fun hok => ?_
  exact { h with
    term := (update_self _ _ _).trans (becomeFollower_term _ _).symm
    voted := by
      rw [becomeFollower_term, if_pos hvote]
      exact hvoted
    leader := by
      rw [becomeFollower_term]
      exact ⟨fun hf => (nomatch hf), fun hf => absurd hf hel⟩
    candidate := fun hf => (nomatch hf)
    progress := fun hf => (nomatch hf)
    own := fun hf => (nomatch hf)
    msgs := fun m hm => hok m (h.msgs m hm) }

/-- The node stands for election. -/
lemma campaign (hs : Sound ids a) (hnone : noneID ∉ ids) : Moves ids a i r.asCandidate := by
  obtain ⟨hel, -⟩ := h.ahead hs (t := r.term + 1) (by omega)
  have hi : i ≠ noneID := fun h0 => hnone (h0 ▸ h.self)
  have hterm : a.term i + 1 = r.asCandidate.term := by rw [asCandidate_term, h.term]
  have hvote : r.asCandidate.vote = i := h.id
  refine .single hs Step.campaign rfl rfl fun hok => ?_
  exact { h with
    term := (update_self _ _ _).trans hterm
    voted := by
      rw [hvote, if_neg hi, ← hterm]
      dsimp only
      rw [set₂_apply, if_pos ⟨rfl, rfl⟩]
    leader := by
      rw [asCandidate_term]
      exact ⟨fun hf => (nomatch hf), fun hf => absurd hf hel⟩
    candidate := fun _ => by
      refine ⟨hvote, ?_, fun v hv => ?_⟩
      · rw [← hterm]
        dsimp only
        rw [set₂_apply, if_pos ⟨rfl, rfl⟩]
        exact h.log
      · cases hv
    progress := fun hf => (nomatch hf)
    own := fun hf => (nomatch hf)
    msgs := fun m hm => hok m (h.msgs m hm) }

/-- The node counts a vote. -/
lemma poll {v : ℕ} {b : Bool}
    (hv : r.state = .candidate → b = true → v ∈ ids ∧ a.voted v r.term = some i) :
    (r.poll v b).Refines ids a i := by
  unfold Raft.poll
  split
  · exact h
  · refine { h with candidate := fun hc => ?_ }
    obtain ⟨h1, h2, h3⟩ := h.candidate hc
    refine ⟨h1, h2, fun w hw => ?_⟩
    rcases eq_or_ne w v with rfl | hne
    · rw [lookup_insert] at hw
      exact hv hc (some.inj hw)
    · rw [lookup_insert_ne hne] at hw
      exact h3 w hw

/-- The votes that a candidate has counted are a quorum of votes for it. -/
lemma quorum_votes (hc : r.state = .candidate)
    (hq : r.quorum = r.granted) :
    ∃ q, (QuorumSystem.majority ids).isQuorum q ∧ ∀ v ∈ q, a.voted v r.term = some i := by
  obtain ⟨-, -, hvotes⟩ := h.candidate hc
  refine ⟨Tally.keysWhere r.votes fun b => b, ⟨fun v hv => ?_, ?_⟩, fun v hv => ?_⟩
  · obtain ⟨b, hb, rfl⟩ := (Tally.mem_keysWhere _ _).1 hv
    exact (hvotes v hb).1
  · rw [Tally.card_keysWhere, ← Tally.length_keys r.prs h.mem_prs]
    exact hq.le
  · obtain ⟨b, hb, rfl⟩ := (Tally.mem_keysWhere _ _).1 hv
    exact (hvotes v hb).2

/-- A candidate's term has no leader. -/
lemma elected_none (hs : Sound ids a) (hc : r.state = .candidate)
    (hq : r.quorum = r.granted) : a.elected r.term = none := by
  obtain ⟨q, hq, hvotes⟩ := h.quorum_votes hc hq
  by_contra hne
  obtain ⟨c, hel⟩ := ne_none_iff_exists'.1 hne
  rw [hs.inv.elected_unique hel hq hvotes] at hel
  have := h.leader.2 hel
  simp [hc] at this

/-- The node becomes leader. -/
lemma elect (hs : Sound ids a) (hwf : r.LogWF)
    (hc : r.state = .candidate) (hq : r.quorum = r.granted) :
    ∃ b, Step (QuorumSystem.majority ids) a i b ∧ r.asLeader.Refines ids b i ∧
      b.elected = update a.elected (a.term i) (some i) ∧
      b.llog = update a.llog (a.term i) (a.log i) := by
  obtain ⟨q, hquorum, hvotes⟩ := h.quorum_votes hc hq
  obtain ⟨-, hclog, -⟩ := h.candidate hc
  have hstep : Step (QuorumSystem.majority ids) a i { a with
      elected := update a.elected (a.term i) (some i)
      llog := update a.llog (a.term i) (a.log i) } := by
    refine Step.elect q ?_ hquorum ?_ ?_
    · rw [h.term]
      exact h.elected_none hs hc hq
    · rw [h.term]
      exact hvotes
    · rw [h.term, hclog, h.log]
  have hext := extends_of_step hs.inv hstep
  refine ⟨_, hstep, ?_, rfl, rfl⟩
  exact { h with
    mem_prs := fun j => (mem_resetProgress r _ j).trans (h.mem_prs j)
    term := by rw [asLeader_term]; exact h.term
    voted := by rw [asLeader_term, asLeader_vote]; exact h.voted
    leader := by
      refine ⟨fun _ => ?_, fun _ => rfl⟩
      rw [asLeader_term, ← h.term]
      exact update_self _ _ _
    candidate := fun hf => (nomatch hf)
    progress := fun _ j pr hj hpr => by
      have hlook : (r.resetProgress r.raftLog.lastIndex).lookup j = some pr := hpr
      rw [lookup_resetProgress _ _ (h.id ▸ hj)] at hlook
      split at hlook
      · cases hlook
        exact ⟨Nat.zero_le _, Nat.succ_pos _, (congrArg (· + 1) hwf.log.lastIndex_eq).le⟩
      · cases hlook
    own := fun _ k hk => by
      -- the log of a candidate has only entries of earlier terms
      have hpos := hwf.term_pos
      rw [asLeader_term] at hk
      change termAt r.raftLog.abs k = r.term at hk
      have hlen := le_length_of_termAt_pos (l := r.raftLog.abs) (k := k) (by omega)
      have hk0 : 0 < k := by
        rcases Nat.eq_zero_or_pos k with rfl | hk0
        · simp [termAt] at hk
          omega
        · exact hk0
      obtain ⟨e, he, hte⟩ := exists_getElem?_of_le hk0 hlen
      have := hs.inv.clog_term i r.term e (hclog ▸ mem_of_getElem? he)
      omega
    msgs := fun m hm => (h.msgs m hm).mono hs hext }

/-! ## Leaders -/

/-- The leader appends entries to its log. -/
lemma extendLog (hs : Sound ids a) (hwf : r.LogWF)
    (hl : r.state = .leader) {es : List Entry} (hne : es ≠ []) (hx : r.extendLog es = .ok r') :
    ∃ b, Steps (QuorumSystem.majority ids) i a b ∧ Sound ids b ∧ r'.Refines ids b i ∧
      b.elected = a.elected ∧ ∀ t, t ≠ r.term → b.llog t = a.llog t := by
  obtain ⟨-, pr, -, hpr, -⟩ := extendLog_eq_ok hx
  obtain ⟨u, hu, hwf', habs⟩ := extendLog_eq hwf.log hne hpr
  rw [hu] at hx
  cases hx
  have hlead : a.elected (a.term i) = some i := by rw [h.term]; exact h.leader.1 hl
  have hterms : ∀ e ∈ r.stampEntries es, Termed.term e = a.term i := by
    intro e he
    obtain ⟨k, hk⟩ := mem_iff_getElem?.mp he
    unfold stampEntries at hk
    rw [getElem?_mapIdx, map_eq_some_iff] at hk
    obtain ⟨x, -, rfl⟩ := hk
    exact h.term.symm
  have hne' := stampEntries_ne r hne
  have hsteps := Steps.append_all (Q := QuorumSystem.majority ids) hlead hterms hne'
  obtain ⟨hinv, hext, -⟩ := hsteps.spec hs.inv
  have hmem : r.id ∈ r.prs := lookup_isSome.1 (by rw [hpr]; rfl)
  have hlog : a.log i ++ r.stampEntries es =
      RaftLog.abs { r.raftLog with unstable := u } := by rw [habs, h.log]
  refine ⟨_, hsteps, ⟨hinv, hs.elected_pos, fun t => ?_⟩, ?_, rfl, fun t ht => ?_⟩
  · dsimp only
    rcases eq_or_ne t (a.term i) with rfl | ht
    · rw [update_self, hlog]
      exact hwf'.consec_abs
    · rw [update_of_ne ht]
      exact hs.consec t
  · exact { h with
      mem_prs := fun j => (mem_insert_of_mem hmem _ j).trans (h.mem_prs j)
      log := (update_self _ _ _).trans hlog
      candidate := fun hc => by simp [hl] at hc
      progress := fun _ j pr' hj hpr' => by
        dsimp only at hpr' ⊢
        rw [lookup_insert_ne (h.id ▸ hj)] at hpr'
        obtain ⟨h1, h2, h3⟩ := h.progress hl j pr' hj hpr'
        refine ⟨?_, h2, ?_⟩
        · rw [set₂_apply, if_neg fun heq => hj heq.1]
          exact h1
        · rw [habs, length_append]
          omega
      own := fun _ k hk => by
        have hpos := hwf.term_pos
        dsimp only at hk ⊢
        have hlen := le_length_of_termAt_pos (k := k) (hk.symm ▸ hpos)
        rw [set₂_apply, if_pos ⟨rfl, h.term.symm⟩, h.log, ← length_append, ← habs]
        exact hlen
      msgs := fun m hm => (h.msgs m hm).mono hs hext }
  · dsimp only
    rw [update_of_ne (h.term ▸ ht)]

/-- A quorum has acknowledged an index of the leader's term that enough progress records
have reached. -/
lemma quorum_acked (hl : r.state = .leader) {mid : ℕ}
    (hmid : ((r.prs.entries.map fun pr => pr.2.matchIndex).insertionSort
      (· ≥ ·))[r.quorum - 1]? = some mid) (hterm : termAt r.raftLog.abs mid = r.term) :
    ∃ q, (QuorumSystem.majority ids).isQuorum q ∧ ∀ v ∈ q, mid ≤ a.acked v r.term := by
  have hcount := Tally.lt_countP_of_sorted hmid
  rw [countP_map] at hcount
  refine ⟨Tally.keysWhere r.prs fun pr => mid ≤ pr.matchIndex, ⟨fun v hv => ?_, ?_⟩, fun v hv => ?_⟩
  · obtain ⟨pr, hpr, -⟩ := (Tally.mem_keysWhere _ _).1 hv
    exact (h.mem_prs v).1 (lookup_isSome.1 (by rw [hpr]; rfl))
  · rw [Tally.card_keysWhere, ← Tally.length_keys r.prs h.mem_prs]
    exact Nat.succ_le_of_lt hcount
  · obtain ⟨pr, hpr, hle⟩ := (Tally.mem_keysWhere _ _).1 hv
    rcases eq_or_ne v i with rfl | hne
    · exact h.own hl mid hterm
    · exact (of_decide_eq_true hle).trans (h.progress hl v pr hne hpr).1

/-- The leader counts acknowledgements and commits. -/
lemma commitStep (hs : Sound ids a) (hwf : r.LogWF)
    (hl : r.state = .leader) {mid : ℕ} {l : RaftLog} {b : Bool}
    (hmid : ((r.prs.entries.map fun pr => pr.2.matchIndex).insertionSort
      (· ≥ ·))[r.quorum - 1]? = some mid)
    (hcommit : r.raftLog.maybeCommit mid r.term = .ok (l, b)) :
    Moves ids a i { r with raftLog := l } := by
  rw [hwf.log.maybeCommit_eq (h.termsOk hs) hwf.term_pos] at hcommit
  split at hcommit
  · rename_i hnew
    cases hcommit
    obtain ⟨q, hq, hack⟩ := h.quorum_acked hl hmid hnew.2
    have hlog := h.leader_log hs hl
    have hlen := le_length_of_termAt_pos (k := mid) (hnew.2.symm ▸ hwf.term_pos)
    have hstep : Step (QuorumSystem.majority ids) a i _ := Step.leaderCommit mid q
      (by rw [h.term]; exact h.leader.1 hl) (by rw [h.commit]; exact hnew.1)
      (by rw [h.term, ← hlog]; exact hlen) (by rw [h.term, ← hlog]; exact hnew.2) hq
      (by rw [h.term]; exact hack)
    exact .single hs hstep rfl rfl fun hok =>
      { h with commit := update_self _ _ _, msgs := fun m hm => hok m (h.msgs m hm) }
  · cases hcommit
    exact h.moves hs

/-! ## Messages that are sent -/

/-- A leader knows its commit index. -/
lemma known (hs : Sound ids a) (hl : r.state = .leader) : Known a r.term r.raftLog.commitIndex := by
  have hknown := Known.of_leader hs.inv (i := i) (by rw [h.term]; exact h.leader.1 hl)
  rwa [h.term, h.commit] at hknown

end

/-- Most messages say nothing about the history. -/
lemma stamp_ok (hpos : 1 ≤ r.term) (hvote : m'.type ≠ .msgVote)
    (hresp : m'.type = .msgVoteResp → m'.reject = true) (happ : m'.type ≠ .msgApp)
    (happResp : m'.type ≠ .msgAppResp) (hbeat : m'.type ≠ .msgHeartbeat) :
    (r.stamp m').Ok ids a where
  term_pos ht := by
    rw [stamp_term]
    · exact hpos
    all_goals
      intro hp
      simp [hp, MessageType.isLocal] at ht
  vote ht := absurd ((stamp_type r m').symm.trans ht) hvote
  voteResp ht hrej := by
    rw [stamp_type] at ht
    rw [stamp_reject, hresp ht] at hrej
    cases hrej
  app ht := absurd ((stamp_type r m').symm.trans ht) happ
  appResp ht := absurd ((stamp_type r m').symm.trans ht) happResp
  heartbeat ht := absurd ((stamp_type r m').symm.trans ht) hbeat

section

variable (h : r.Refines ids a i) (hs : Sound ids a) (hwf : r.LogWF)
include h hs hwf

/-- A request for votes. -/
lemma voteRequest_ok
    {typ : CampaignType} (hrole : r.state = typ.role) {term lastTerm : ℕ} (id : ℕ)
    (hl : r.raftLog.lastTerm = .ok lastTerm) :
    (r.stamp (r.voteRequest term (campaignMsgType typ) lastTerm id)).Ok ids a := by
  cases typ with
  | preElection =>
    refine stamp_ok hwf.term_pos ?_ ?_ ?_ ?_ ?_ <;> simp [voteRequest, campaignMsgType]
  | election =>
    obtain ⟨-, hclog, -⟩ := h.candidate hrole
    rw [hwf.log.lastTerm_eq (h.termsOk hs)] at hl
    cases hl
    rw [stamp_eq rfl (by simp [voteRequest, campaignMsgType])
      (by simp [voteRequest, campaignMsgType]), h.id]
    exact {
      term_pos := fun _ => hwf.term_pos
      vote := fun _ => by
        rw [hclog]
        exact ⟨h.self, h.term.ge, hwf.log.lastIndex_eq, rfl⟩
      voteResp := by rintro ⟨⟩
      app := by rintro ⟨⟩
      appResp := by rintro ⟨⟩
      heartbeat := by rintro ⟨⟩ }

/-- A heartbeat tells the commit index as far as the addressee has acknowledged it. -/
lemma heartbeat_ok
    (hl : r.state = .leader) (hid : id ≠ r.id)
    (hpr : r.prs.lookup id = some pr) (ctx : Bytes) :
    (r.stamp (r.heartbeatMessage id pr ctx)).Ok ids a := by
  exact {
    term_pos := fun _ => hwf.term_pos
    vote := nofun
    voteResp := nofun
    app := nofun
    appResp := nofun
    heartbeat := fun _ => ⟨(min_le_right _ _).trans (h.progress hl id pr (h.id ▸ hid) hpr).1,
      (h.known hs hl).of_le (min_le_left _ _)⟩ }

/-- A `MsgApp` carries the leader's log from `Next` on. -/
lemma sendAppend_ok
    (hl : r.state = .leader) (hid : id ≠ r.id) (hpr : r.prs.lookup id = some pr)
    {es : List Entry} (hes : r.raftLog.entriesFrom pr.next = .ok es) :
    (r.stamp (r.appendMessage id pr es)).Ok ids a := by
  obtain ⟨-, hnext, hlast⟩ := h.progress hl id pr (h.id ▸ hid) hpr
  rw [hwf.log.entriesFrom_eq hnext] at hes
  cases hes
  unfold appendMessage
  rw [hwf.log.term_eq (h.termsOk hs)]
  rw [stamp_eq rfl (by simp) (by simp), h.id]
  exact {
    term_pos := fun _ => hwf.term_pos
    vote := nofun
    voteResp := nofun
    app := fun _ => by
      dsimp only
      rw [← h.leader_log hs hl, length_drop]
      refine ⟨h.leader.1 hl, fun heq => hid (heq.symm.trans h.id.symm), by omega, rfl, ?_,
        h.known hs hl⟩
      rw [← length_drop, take_length]
    appResp := nofun
    heartbeat := nofun }

end

/-! ## Followers -/

/-- A message of another node that passes the test of the term is of the node's term. -/
lemma term_eq_of_current (hm : m.Ok ids a) (hlocal : m.type.isLocal = false)
    (hcur : Current m r) : m.term = r.term := by
  rcases hcur with h0 | heq
  · have := hm.term_pos hlocal
    omega
  · exact heq

/-- Such a message is addressed to the node. -/
lemma addressed (hm : m.OkFor ids a i) (hlocal : m.type.isLocal = false) (hcur : Current m r) :
    m.term = r.term ∧ m.toID = i :=
  ⟨term_eq_of_current hm.ok hlocal hcur, hm.toID hlocal⟩

/-- `maybeAppend` on a `MsgApp` does not panic: the message is refused or merged in. -/
lemma maybeAppend_eq (h : r.Refines ids a i) (hs : Sound ids a) (hwf : r.LogWF)
    (hm : m.Ok ids a) (ht : m.type = .msgApp) (hterm : m.term = r.term) :
    r.raftLog.maybeAppend m.logIndex m.logTerm m.commitIndex m.entries = .ok none ∨
    ∃ u, r.raftLog.maybeAppend m.logIndex m.logTerm m.commitIndex m.entries =
        .ok (some ({ r.raftLog with
          unstable := u
          commitIndex := max r.raftLog.commitIndex
            (min m.commitIndex (m.logIndex + m.entries.length)) },
          m.logIndex + m.entries.length)) ∧
      RaftLog.abs { r.raftLog with unstable := u } =
        merge r.raftLog.abs ((a.llog r.term).take (m.logIndex + m.entries.length)) := by
  obtain ⟨hel, -, hlen, hlogTerm, hentries, -⟩ := hm.app ht
  rw [hterm] at hel hlen hlogTerm hentries
  have hmatch : ∀ k, 0 < k → k ≤ (a.llog r.term).length →
      termAt r.raftLog.abs k = termAt (a.llog r.term) k →
      r.raftLog.abs.take k = (a.llog r.term).take k := by
    intro k hk hkl hkt
    have hpos := hs.termAt_pos (hs.inv.llog_ok r.term) hk hkl
    exact (h.logOk hs).take_eq_of_termAt_eq (hs.inv.llog_ok r.term) hk
      (le_length_of_termAt_pos (hkt.symm ▸ hpos)) hkl hkt
  have hcommit : r.raftLog.abs.take r.raftLog.commitIndex <+: a.llog r.term := by
    have := hs.inv.take_commit_isPrefix (i := i) (by rw [h.term, hel]; simp)
    rwa [h.log, h.commit, h.term] at this
  have hmerge := RaftLog.WF.maybeAppend_merge (c := m.commitIndex) hmatch hcommit
    (hs.consec r.term) hlen hwf.log (h.termsOk hs)
  rw [← hlogTerm, ← hentries] at hmerge
  rcases hmerge with ⟨-, hnone⟩ | ⟨u, hu, -, habs⟩
  · exact .inl hnone
  · exact .inr ⟨u, hu, habs⟩

/-- The answer to a `MsgApp`. -/
lemma appResp_ok (hid : r.id = i) (hpos : 1 ≤ r.term) {k hint : ℕ} {reject : Bool}
    (hj : i ≠ j) (hk : reject = false → k ≤ a.acked i r.term) :
    (r.stamp { toID := j, type := .msgAppResp, logIndex := k, reject := reject,
               rejectHint := hint }).Ok ids a := by
  rw [stamp_eq rfl (by simp) (by simp), hid]
  exact {
    term_pos := fun _ => hpos
    vote := nofun
    voteResp := nofun
    app := nofun
    appResp := fun _ => ⟨hj, hk⟩
    heartbeat := nofun }

section

variable (h : r.Refines ids a i) (hs : Sound ids a) (hwf : r.LogWF) (hm : m.OkFor ids a i)
include h hs hwf hm

/-- A follower accepts entries of its leader. -/
lemma accept (hf : r.state = .follower) (ht : m.type = .msgApp)
    (hcur : Current m r) {l : RaftLog} {k : ℕ}
    (hl : r.raftLog.maybeAppend m.logIndex m.logTerm m.commitIndex m.entries =
      .ok (some (l, k))) :
    Moves ids a i ({ r with raftLog := l }.send
      { toID := m.fromID, type := .msgAppResp, logIndex := k }) := by
  obtain ⟨hterm, hto⟩ := addressed hm (by simp [ht, MessageType.isLocal]) hcur
  obtain ⟨hel, hne, hlen, -, -, hknown⟩ := hm.ok.app ht
  rw [hterm] at hel hlen hknown
  rw [hto] at hne
  rcases h.maybeAppend_eq hs hwf hm.ok ht hterm with hnone | ⟨u, hu, habs⟩
  · rw [hnone] at hl
    cases hl
  · rw [hu] at hl
    cases hl
    set k := m.logIndex + m.entries.length with hk
    have hlead : a.elected (a.term i) = some m.fromID := by rw [h.term]; exact hel
    have hstep : Step (QuorumSystem.majority ids) a i _ := Step.accept k
      (by rw [hlead]; simp) (by rw [hlead]; simpa using hne) (by rw [h.term]; exact hlen)
    have hext := extends_of_step hs.inv hstep
    have hinv := hs.inv.step hstep
    have hlearn := Known.learn (Q := QuorumSystem.majority ids) (i := i)
      (k := min m.commitIndex k)
      (((h.term ▸ hknown).mono hs.inv hext).of_le (min_le_left _ _))
      (by
        dsimp only
        rw [update_self]
        exact (take_prefix_take_left (min_le_right _ _)).trans (prefix_merge_self _ _))
    have hext' := hext.trans (extends_of_step hinv hlearn)
    refine ⟨_, (Relation.ReflTransGen.single hstep).tail hlearn,
      (hs.step hstep rfl rfl).step hlearn rfl rfl, send ?_ ?_, rfl, rfl⟩
    · exact { h with
        log := by
          change update a.log i _ i = RaftLog.abs { r.raftLog with unstable := u }
          rw [update_self, habs, h.log, h.term]
        commit := by
          change update a.commit i _ i = _
          rw [update_self]
          exact congrArg (max · _) h.commit
        candidate := fun hc => by simp [hf] at hc
        progress := fun hl => by simp [hf] at hl
        own := fun hl => by simp [hf] at hl
        msgs := fun m hm => (h.msgs m hm).mono hs hext' }
    · refine appResp_ok h.id hwf.term_pos hne.symm fun _ => ?_
      change _ ≤ set₂ a.acked i (a.term i) _ i r.term
      rw [set₂_apply, if_pos ⟨rfl, h.term.symm⟩]
      exact le_max_right _ _

/-- A follower refuses entries of its leader. -/
lemma refuse (ht : m.type = .msgApp) (hcur : Current m r) {k hint : ℕ} :
    Moves ids a i (r.send { toID := m.fromID, type := .msgAppResp, logIndex := k
                            reject := true, rejectHint := hint }) := by
  obtain ⟨-, hto⟩ := addressed hm (by simp [ht, MessageType.isLocal]) hcur
  obtain ⟨-, hne, -⟩ := hm.ok.app ht
  exact moves (h.send (appResp_ok h.id hwf.term_pos (hto ▸ hne.symm) (by simp))) hs

/-- A follower learns the commit index from a heartbeat. -/
lemma learn (hf : r.state = .follower) (ht : m.type = .msgHeartbeat)
    (hcur : Current m r) {l : RaftLog}
    (hl : r.raftLog.commitTo (min m.commitIndex r.raftLog.lastIndex) = .ok l) :
    Moves ids a i ({ r with raftLog := l }.send
      { toID := m.fromID, type := .msgHeartbeatResp, context := m.context }) := by
  obtain ⟨hterm, hto⟩ := addressed hm (by simp [ht, MessageType.isLocal]) hcur
  obtain ⟨hack, hknown⟩ := hm.ok.heartbeat ht
  rw [hterm, hto] at hack
  rw [hterm] at hknown
  have hpre := hs.inv.take_acked_isPrefix (i := i) (k := m.commitIndex) (by rw [h.term]; exact hack)
  have hle : m.commitIndex ≤ r.raftLog.abs.length := by
    have := hpre.length_le
    rw [length_take, h.log, h.term] at this
    have := hknown.1
    omega
  have hlearn := Known.learn (Q := QuorumSystem.majority ids) (h.term ▸ hknown) hpre
  rw [hwf.log.lastIndex_eq, Nat.min_eq_left hle, hwf.log.commitTo_eq hle] at hl
  cases hl
  refine .single hs hlearn rfl rfl fun hok => send ?_ ?_
  · exact { h with
      commit := by
        change update a.commit i _ i = _
        rw [update_self, h.commit]
      candidate := fun hc => by simp [hf] at hc
      progress := fun hl => by simp [hf] at hl
      own := fun hl => by simp [hf] at hl
      msgs := fun m hm => hok m (h.msgs m hm) }
  · exact stamp_ok hwf.term_pos (by simp) (by simp) (by simp) (by simp) (by simp)

/-- A node grants a vote. -/
lemma grant (hnone : noneID ∉ ids) (hvote : m.type = .msgVote) (hcur : Current m r)
    (hfree : r.vote = noneID ∨ m.fromID = r.vote)
    (hup : r.raftLog.isUpToDate m.logIndex m.logTerm = .ok true) :
    Moves ids a i ({ r with vote := m.fromID }.send
      { type := .msgVoteResp, toID := m.fromID }) := by
  have hterm := term_eq_of_current (r := r) hm.ok (by simp [hvote, MessageType.isLocal]) hcur
  obtain ⟨hmem, hle, hidx, hlast⟩ := hm.ok.vote hvote
  rw [hterm] at hle hidx hlast
  have hfrom : m.fromID ≠ noneID := fun h0 => hnone (h0 ▸ hmem)
  rw [hwf.log.isUpToDate_eq (h.termsOk hs)] at hup
  have hunbound : ∀ d, a.voted i (a.term i) = some d → d = m.fromID := by
    intro d hd
    rw [h.term, h.voted] at hd
    split at hd
    · cases hd
    · cases hd
      rcases hfree with h0 | heq
      · contradiction
      · exact heq.symm
  have hupToDate : UpToDate (a.clog m.fromID (a.term i)) (a.log i) := by
    rw [h.term, h.log, UpToDate, ← hidx, ← hlast]
    exact of_decide_eq_true (Except.ok.inj hup)
  have hstep : Step (QuorumSystem.majority ids) a i _ :=
    Step.grant m.fromID hunbound (by rw [h.term]; exact hle) hupToDate
  have hext := extends_of_step hs.inv hstep
  refine .single hs hstep rfl rfl fun hok => send ?_ ?_
  · exact { h with
      voted := by
        dsimp only
        rw [set₂_apply, if_pos ⟨rfl, h.term.symm⟩, if_neg hfrom]
      candidate := fun hc => by
        obtain ⟨h1, h2, h3⟩ := h.candidate hc
        refine ⟨?_, h2, fun v hv => ⟨(h3 v hv).1, hext.voted _ _ _ (h3 v hv).2⟩⟩
        rcases hfree with h0 | heq
        · exact absurd (h0.symm.trans h1) fun heq => hnone (heq ▸ h.self)
        · exact heq.trans h1
      msgs := fun m hm => hok m (h.msgs m hm) }
  · rw [h.id]
    exact {
      term_pos := fun _ => hwf.term_pos
      vote := by simp
      voteResp := fun _ _ => by
        dsimp only
        rw [set₂_apply, if_pos ⟨rfl, h.term.symm⟩]
        exact ⟨h.self, rfl⟩
      app := by simp
      appResp := by simp
      heartbeat := by simp }

end

/-- The leader takes note of an answer to `MsgApp`. -/
lemma noteProgress (h : r.Refines ids a i) (hs : Sound ids a) (hm : m.OkFor ids a i)
    (hl : r.state = .leader) (ht : m.type = .msgAppResp) (hcur : Current m r)
    (hpr : r.prs.lookup m.fromID = some pr) :
    Refines ids a i { r with prs := r.prs.insert m.fromID (respond pr m) } := by
  obtain ⟨hterm, hto⟩ := addressed hm (by simp [ht, MessageType.isLocal]) hcur
  obtain ⟨hne, hack⟩ := hm.ok.appResp ht
  rw [hto] at hne
  rw [hterm] at hack
  have hmem : m.fromID ∈ r.prs := lookup_isSome.1 (by rw [hpr]; rfl)
  obtain ⟨h1, h2, h3⟩ := h.progress hl m.fromID pr hne hpr
  refine { h with mem_prs := fun j => (mem_insert_of_mem hmem _ j).trans (h.mem_prs j),
                  progress := fun _ j pr' hj hpr' => ?_ }
  rcases eq_or_ne j m.fromID with rfl | hjne
  · rw [lookup_insert] at hpr'
    cases hpr'
    unfold respond
    split
    · unfold Progress.mayDecreaseTo
      split
      · exact ⟨h1, h2, h3⟩
      · dsimp only
        refine ⟨h1, ?_, ?_⟩
        · split <;> omega
        · split <;> omega
    · rename_i hrej
      rw [Bool.not_eq_true] at hrej
      have hle := hack hrej
      have hlen : m.logIndex ≤ r.raftLog.abs.length := by
        rcases Nat.eq_zero_or_pos m.logIndex with h0 | hpos
        · omega
        · have := (hs.inv.acked_ok m.fromID r.term (by omega)).2.2
          rw [h.leader_log hs hl]
          omega
      unfold Progress.maybeUpdate
      dsimp only
      refine ⟨?_, ?_, ?_⟩
      · split <;> omega
      · split <;> omega
      · split <;> omega
  · rw [lookup_insert_ne hjne] at hpr'
    exact h.progress hl j pr' hj hpr'

end Refines

/-! ## Actions are abstract actions -/

/-- The node can have got to its state from the abstract state `a`. The logs of leaders have
only changed in a term of which the node is leader now. -/
def Reaches (ids : Finset ℕ) (m : Message) (a : History) (i : ℕ) (r : Raft) : Prop :=
  ∃ b, Steps (QuorumSystem.majority ids) i a b ∧ Sound ids b ∧ r.Refines ids b i ∧
    ∀ t, (b.elected t = a.elected t ∧ b.llog t = a.llog t) ∨
      (r.state = .leader ∧ r.term = t ∧ Settled m r)

section Reaches

variable {ids : Finset ℕ} {a b : History} {i : ℕ} {r r' : Raft} {m : Message}

/-- The abstract state stays as it is. -/
lemma Refines.reaches (h : r.Refines ids a i) (hs : Sound ids a) : r.Reaches ids m a i :=
  ⟨a, Relation.ReflTransGen.refl, hs, h, fun _ => .inl ⟨rfl, rfl⟩⟩

/-- The leaders' logs stay as they are. -/
lemma Refines.Moves.reaches (h : Refines.Moves ids a i r) : r.Reaches ids m a i := by
  obtain ⟨b, hsteps, hs, hr, h1, h2⟩ := h
  exact ⟨b, hsteps, hs, hr, fun t => .inl ⟨congrFun h1 t, congrFun h2 t⟩⟩

/-- **An action of a node is a sequence of abstract actions.** -/
theorem Action.reaches (ha : Action m r r') (h : r.Refines ids a i) (hs : Sound ids a)
    (hwf : r.LogWF) (hwf' : m.WF) (hm : m.OkFor ids a i) (hnone : noneID ∉ ids) :
    r'.Reaches ids m a i := by
  cases ha with
  | aux | readResp | readSingle | addRead | ackRead =>
    exact Refines.reaches (h.congr rfl rfl rfl rfl rfl rfl rfl fun _ => .inl) hs
  | follow t lead ht =>
    rcases ht with ⟨-, hlt, -⟩ | ⟨rfl, hl⟩ | ⟨-, h0, hb⟩
    · exact (h.adopt hs lead hlt).reaches
    · refine Refines.reaches (Refines.retire ?_ hl nofun nofun) hs
      refine h.congr rfl rfl (becomeFollower_term _ lead) ?_ rfl rfl rfl fun _ => .inl
      exact (becomeFollower_vote _ lead).trans (if_neg (not_not.2 rfl))
    · have := hwf'.heartbeat hb
      omega
  | preCandidate hl =>
    refine Refines.reaches (Refines.retire ?_ hl nofun nofun) hs
    exact h.congr rfl rfl rfl rfl rfl rfl rfl fun _ => .inl
  | candidate => exact (h.campaign hs hnone).reaches
  | pollSelf =>
    refine (h.poll fun hc _ => ?_).reaches hs
    have hi : i ≠ noneID := fun h0 => hnone (h0 ▸ h.self)
    have hv := h.voted
    rw [(h.candidate hc).1, if_neg hi] at hv
    rw [h.id]
    exact ⟨h.self, hv⟩
  | pollResp ht hcur =>
    refine (h.poll fun hc hb => ?_).reaches hs
    have ht' : m.type = .msgVoteResp := by
      rw [ht, voteRespType, hc]
      simp
    obtain ⟨hterm, hto⟩ := Refines.addressed hm (by simp [ht', MessageType.isLocal]) (hcur hc)
    have := hm.ok.voteResp ht' (by simpa using hb)
    rwa [hterm, hto] at this
  | lead hset ht hc hq =>
    obtain ⟨b, hstep, hr, hel, hllog⟩ := h.elect hs hwf hc hq
    refine ⟨_, Relation.ReflTransGen.single hstep, ⟨hs.inv.step hstep, fun t ht => ?_,
      fun t => ?_⟩, hr, fun t => ?_⟩
    · rw [hel] at ht
      rcases eq_or_ne t (a.term i) with rfl | hne
      · rw [h.term]
        exact hwf.term_pos
      · rw [update_of_ne hne] at ht
        exact hs.elected_pos t ht
    · rw [hllog]
      rcases eq_or_ne t (a.term i) with rfl | hne
      · rw [update_self, h.log]
        exact hwf.log.consec_abs
      · rw [update_of_ne hne]
        exact hs.consec t
    · rcases eq_or_ne t (a.term i) with rfl | hne
      · refine .inr ⟨rfl, ?_, (Action.lead hset ht hc hq).settled hset⟩
        rw [asLeader_term, h.term]
      · rw [hel, hllog]
        exact .inl ⟨update_of_ne hne _ _, update_of_ne hne _ _⟩
  | append xs hset ht hl hne hx =>
    have h₁ : Refines ids a i { r with pendingConf := (filterConf r.pendingConf xs).2 } :=
      h.congr rfl rfl rfl rfl rfl rfl rfl fun _ => .inl
    obtain ⟨b, hsteps, hs', hr, hel, hllog⟩ :=
      h₁.extendLog hs ⟨hwf.log, hwf.term_pos, hwf.msgs⟩ hl (filterConf_ne hne) hx
    refine ⟨b, hsteps, hs', hr, fun t => ?_⟩
    rcases eq_or_ne t r.term with rfl | ht
    · have hset' := (Action.append xs hset ht hl hne hx).settled hset
      obtain ⟨l, pr, -, -, rfl⟩ := extendLog_eq_ok hx
      exact .inr ⟨hl, rfl, hset'⟩
    · exact .inl ⟨congrFun hel t, hllog t ht⟩
  | commit _ hl hk hc => exact (h.commitStep hs hwf hl hk hc).reaches
  | voteRequest typ term lastTerm id hrole hl =>
    exact (h.send (h.voteRequest_ok hs hwf hrole id hl)).reaches hs
  | heartbeat id ctx hl hid _ hpr =>
    exact (h.send (h.heartbeat_ok hs hwf hl hid hpr ctx)).reaches hs
  | sendAppend id hl hid hpr hes =>
    refine (h.send (h.sendAppend_ok hs hwf hl ?_ hpr hes)).reaches hs
    rcases hid with hid | ⟨rfl, ht⟩
    · exact hid
    · have := (hm.ok.appResp ht).1
      rwa [hm.toID (by simp [ht, MessageType.isLocal]), ← h.id] at this
  | accept hf ht hcur hl => exact (h.accept hs hwf hm hf ht hcur hl).reaches
  | refuse _ ht hcur => exact (h.refuse hs hwf hm ht hcur).reaches
  | learn hf ht hcur hl => exact (h.learn hs hwf hm hf ht hcur hl).reaches
  | forward ht =>
    refine (h.send (Refines.stamp_ok hwf.term_pos ?_ ?_ ?_ ?_ ?_)).reaches hs
    all_goals
      rcases ht with ht | ht
      all_goals simp [ht]
  | grant ht hcur hfree hup => exact (h.grant hs hwf hm hnone ht hcur hfree hup).reaches
  | answerVote x _ _ _ _ hx =>
    refine (h.send (Refines.stamp_ok hwf.term_pos ?_ ?_ ?_ ?_ ?_)).reaches hs
    all_goals
      rcases hx with hx | ⟨hx, hrej⟩
      all_goals simp [*]
  | progress pr hl ht hcur hpr => exact (h.noteProgress hs hm hl ht hcur hpr).reaches hs
  | release states ms _ _ _ _ hms =>
    refine Refines.reaches (h.congr rfl rfl rfl rfl rfl rfl rfl fun x hx => ?_) hs
    rcases mem_append.1 hx with hx | hx
    · exact .inl hx
    · obtain ⟨rs, -, rfl⟩ := hms x hx
      exact .inr (Refines.stamp_ok hwf.term_pos (by simp [readAnswer]) (by simp [readAnswer])
        (by simp [readAnswer]) (by simp [readAnswer]) (by simp [readAnswer]))

end Reaches

end Raft

end Yukino.Replica
