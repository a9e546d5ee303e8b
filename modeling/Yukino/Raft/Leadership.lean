import Yukino.Raft.Simulation

set_option autoImplicit false

/-!
# The leader that a node knows

A node notes in `lead` whom it takes for the leader of its term. `Step` sets the field to the
sender of any message of a higher term that is no vote request. We show that the field is
right all the same: only messages of a leader ever carry a term higher than the one of the
node they are addressed to.

## Main definitions

* `Raft.Trail` — what a reaction to a message leaves of the known leader and of the messages that
  wait to be handed out.
* `Message.LeadOk`, `Raft.LeadOk`, `Cluster.LeadOk` — the invariant, relative to the history of the
  run.
* `FixedCluster.HasLed` — a node was leader of a term in the run.
* `Node.passedOn` — the proposals and reads that an event makes a node pass on.

## Main results

* `leader_pointer_sound` — a known leader was elected in the node's term, two nodes of one term
  agree on it, and proposals and reads are passed on to it only.

## Design

An answer is sent in the term of the message that it answers, and that message was sent in a
term that its sender had reached. So an answer is never of a higher term than its addressee,
and the branch of `Step` that would take its sender for the leader is not taken.
-/

namespace Yukino.Replica

open Consensus Outcome List

namespace MessageType

/-- The messages that only a leader sends in its own term. -/
def isOfLeader : MessageType → Bool
  | .msgApp | .msgHeartbeat | .msgReadIndexResp => true
  | _ => false

lemma isLocal_of_isOfLeader {t : MessageType} (h : t.isOfLeader = true) : t.isLocal = false := by
  cases t <;> first | rfl | cases h

lemma isLocal_of_isAnswer {t : MessageType} (h : t.isAnswer = true) : t.isLocal = false := by
  cases t <;> first | rfl | cases h

lemma isLocal_of_isPassedOn {t : MessageType} (h : t.isPassedOn = true) : t.isLocal = true := by
  cases t <;> first | rfl | cases h

lemma isOfLeader_of_isLeaders {t : MessageType} (h : t.isLeaders = true) : t.isOfLeader = true := by
  cases t <;> first | rfl | cases h

end MessageType

namespace Raft

variable {m : Message} {r r' : Raft}

/-! ## One action -/

/-- A message `x` that a node in state `r` sends when it reacts to `m`. -/
structure Sent (m : Message) (r : Raft) (x : Message) : Prop where
  passedOn : x.type.isLocal = true → x.type.isPassedOn = true ∧ m.type = x.type ∧
    x.term = m.term ∧ x.toID = r.lead ∧ r.lead ≠ noneID
  own : x.type.isLocal = false → x.term = r.term ∧ x.fromID = r.id
  leader : x.type.isOfLeader = true → r.state = .leader
  answer : x.type.isAnswer = true → x.toID = m.fromID ∧ m.type.isLocal = false ∧
    (m.term = 0 ∨ r.term ≤ m.term)

/-- A message of a node's own, which it does not pass on for another one. -/
lemma Sent.of_own {x : Message} (hlocal : x.type.isLocal = false) (hfrom : x.fromID = noneID)
    (hleader : x.type.isOfLeader = true → r.state = .leader)
    (hanswer : x.type.isAnswer = true → x.toID = m.fromID ∧ m.type.isLocal = false ∧
      (m.term = 0 ∨ r.term ≤ m.term)) : Sent m r (r.stamp x) where
  passedOn h := by simp [hlocal] at h
  own _ := by
    refine ⟨stamp_term _ _ ?_ ?_, stamp_fromID _ _ hfrom⟩
    all_goals
      intro h
      simp [h, MessageType.isLocal] at hlocal
  leader h := hleader (by rwa [stamp_type] at h)
  answer h := by
    rw [stamp_type] at h
    rw [stamp_toID]
    exact hanswer h

/-- The message makes a node of term `t₀` take its sender for the leader of term `t`. -/
def Names (m : Message) (t₀ t : ℕ) : Prop :=
  m.type.isLeaders = true ∧ (m.term = 0 ∨ m.term = t) ∨
    t₀ < m.term ∧ m.term = t ∧ m.type ≠ .msgVote ∧ m.type ≠ .msgPreVote

lemma Names.of_le {t₀ t₁ t : ℕ} (h : Names m t₁ t) (hle : t₀ ≤ t₁) : Names m t₀ t :=
  h.imp_right fun h => ⟨hle.trans_lt h.1, h.2⟩

/-- How one action changes the known leader, and what it sends. -/
structure LeadAction (m : Message) (r r' : Raft) : Prop where
  lead : r'.lead = noneID ∨ (r'.lead = r.lead ∧ r'.term = r.term) ∨
    (r'.lead = m.fromID ∧ Names m r.term r'.term) ∨ r'.lead = r.id ∧ r'.state = .leader
  msgs : ∃ ms, r'.msgs = r.msgs ++ ms ∧ ∀ x ∈ ms, Sent m r x
  /-- A proposal or a read changes neither the leader nor the term. -/
  passedOn : m.type.isPassedOn = true → m.term = 0 → r'.lead = r.lead ∧ r'.term = r.term

/-- The answer of a follower to its leader. -/
lemma Sent.of_answer {x : Message} (hx : x.type.isAnswer = true) (hfrom : x.fromID = noneID)
    (hto : x.toID = m.fromID) (hm : m.type.isLocal = false)
    (hterm : m.term = 0 ∨ r.term ≤ m.term) : Sent m r (r.stamp x) := by
  refine Sent.of_own (MessageType.isLocal_of_isAnswer hx) hfrom (fun h => ?_)
    fun _ => ⟨hto, hm, hterm⟩
  cases ht : x.type <;> simp [ht, MessageType.isAnswer, MessageType.isOfLeader] at hx h

lemma Says.sent {x : Message} (h : Says m r x) : Sent m r (r.stamp x) := by
  cases h with
  | request hfrom ht =>
    refine Sent.of_own ?_ hfrom (fun hx => ?_) fun hx => ?_
    · rcases ht with ht | ht
      all_goals rw [ht]; rfl
    all_goals
      rcases ht with ht | ht
      all_goals
        rw [ht] at hx
        cases hx
  | append hfrom ht h | heartbeat hfrom ht h =>
    refine Sent.of_own (by rw [ht]; rfl) hfrom (fun _ => h) fun hx => ?_
    rw [ht] at hx
    cases hx
  | answer hfrom ht hto hm hterm => exact Sent.of_answer ht hfrom hto hm hterm
  | forward hm hlead heq =>
    subst heq
    refine ⟨fun _ => ?_, fun h => ?_, fun h => ?_, fun h => ?_⟩
    · refine ⟨?_, by rw [stamp_type], ?_, stamp_toID _ _, hlead⟩
      · rw [stamp_type]
        rcases hm with hm | hm
        all_goals rw [hm]; rfl
      · unfold stamp
        rw [if_neg]
        · split <;> rfl
        · rcases hm with hm | hm
          all_goals split <;> simp [hm]
    all_goals
      rw [stamp_type] at h
      rcases hm with hm | hm
      all_goals
        rw [hm] at h
        cases h
  | read h _ heq =>
    rw [heq]
    exact Sent.of_own rfl rfl (fun _ => h) fun hx => by cases hx

/-- **What every action does to the known leader.** -/
lemma Action.leadAction (ha : Action m r r') : LeadAction m r r' := by
  have hmsgs : ∃ ms, r'.msgs = r.msgs ++ ms ∧ ∀ x ∈ ms, Sent m r x := by
    obtain ⟨ms, hms, hsays⟩ := ha.effect.msgs
    refine ⟨ms, hms, fun x hx => ?_⟩
    obtain ⟨y, hy, rfl⟩ := hsays x hx
    exact hy.sent
  have hsame : r'.lead = r.lead → r'.term = r.term → LeadAction m r r' := fun hlead hterm =>
    ⟨.inr (.inl ⟨hlead, hterm⟩), hmsgs, fun _ _ => ⟨hlead, hterm⟩⟩
  cases ha with
  | aux lead _ _ _ _ hlead =>
    rcases hlead with hlead | ⟨hlead, hcur, hm⟩
    · exact hsame hlead rfl
    · refine ⟨.inr (.inr (.inl ⟨hlead, .inl ⟨hm, hcur⟩⟩)), hmsgs, ?_⟩
      simp [MessageType.isPassedOn_of_isLeaders hm]
  | follow t lead h hlead hpass =>
    -- a higher term is always the one of the message, which is no `MsgPreVote` then
    have hadopt : r.term < t → m.term = t ∧ m.type ≠ .msgPreVote := by
      intro hlt
      rcases h with ⟨rfl, -, hns⟩ | ⟨rfl, -⟩ | ⟨rfl, -⟩
      · exact ⟨rfl, fun hpre => hns (.inr (.inl hpre))⟩
      · exact absurd hlt (lt_irrefl _)
      · exact absurd hlt (Nat.not_lt_zero _)
    refine ⟨?_, hmsgs, fun hm h0 => ?_⟩
    · rw [becomeFollower_term]
      rcases hlead with hlead | ⟨hlead, hterm, hm | ⟨hlt, hm⟩⟩
      · exact .inl hlead
      · exact .inr (.inr (.inl ⟨hlead, .inl ⟨hm, hterm⟩⟩))
      · obtain ⟨rfl, hpre⟩ := hadopt hlt
        exact .inr (.inr (.inl ⟨hlead, .inr ⟨hlt, rfl, hm, hpre⟩⟩))
    · have hlt := hpass hm
      omega
  | candidate _ ht =>
    refine ⟨.inl rfl, hmsgs, ?_⟩
    simp [MessageType.isPassedOn_of_mayElect ht]
  | lead _ ht =>
    refine ⟨.inr (.inr (.inr ⟨rfl, rfl⟩)), hmsgs, ?_⟩
    simp [MessageType.isPassedOn_of_mayElect ht]
  | pollSelf | pollResp =>
    rw [poll_eq] at hsame ⊢
    exact hsame rfl rfl
  | append xs _ _ _ _ hx =>
    obtain ⟨l, pr, -, -, rfl⟩ := extendLog_eq_ok hx
    exact hsame rfl rfl
  | preCandidate | commit | voteRequest | heartbeat | sendAppend | accept | refuse | learn
  | forward | readResp | readSingle | grant | answerVote | addRead | progress | ackRead
  | release => exact hsame rfl rfl

/-! ## A reaction -/

/-- The node has led term `t` before or after a reaction. -/
def Led (r r' : Raft) (t : ℕ) : Prop :=
  r.state = .leader ∧ r.term = t ∨ r'.state = .leader ∧ r'.term = t

/-- A message `x` that a node sends in a reaction to `m` that takes it from `r` to `r'`. -/
structure SentBy (m : Message) (r r' : Raft) (x : Message) : Prop where
  passedOn : x.type.isLocal = true → m.type = x.type ∧ x.term = m.term ∧
    (m.term = 0 → x.toID = r.lead ∧ r.lead ≠ noneID)
  own : x.type.isLocal = false → x.term ≤ r'.term ∧ x.fromID = r.id
  leader : x.type.isOfLeader = true → Led r r' x.term
  answer : x.type.isAnswer = true → x.toID = m.fromID ∧ m.type.isLocal = false ∧
    (m.term = 0 ∨ x.term ≤ m.term)

/-- What a reaction to `m` does to the known leader, and what it sends. -/
structure Trail (m : Message) (r r' : Raft) : Prop where
  id : r'.id = r.id
  term_le : r.term ≤ r'.term
  /-- Who becomes leader has taken note of the message. -/
  leader : r'.state = .leader → Settled m r' ∨ r.state = .leader ∧ r.term = r'.term
  lead : r'.lead = noneID ∨ (r'.lead = r.lead ∧ r'.term = r.term) ∨
    (r'.lead = m.fromID ∧ Names m r.term r'.term) ∨ r'.lead = r.id ∧ Led r r' r'.term
  msgs : ∃ ms, r'.msgs = r.msgs ++ ms ∧ ∀ x ∈ ms, SentBy m r r' x
  passedOn : m.type.isPassedOn = true → m.term = 0 → r'.lead = r.lead ∧ r'.term = r.term

namespace Trail

lemma refl (m : Message) (r : Raft) : Trail m r r where
  id := rfl
  term_le := le_rfl
  leader hl := .inr ⟨hl, rfl⟩
  lead := .inr (.inl ⟨rfl, rfl⟩)
  msgs := ⟨[], by simp, by simp⟩
  passedOn _ _ := ⟨rfl, rfl⟩

variable {r₁ r₂ : Raft}

variable (h : Trail m r r₁) (ha : Action m r₁ r₂)
include h ha

/-- A node that has led a term in a part of a reaction has led it in the whole. -/
lemma led (hm : m.WF) {t : ℕ} (ht : Led r r₁ t) : Led r r₂ t := by
  rcases ht with ht | ⟨hl, ht⟩
  · exact .inl ht
  · rcases h.leader hl with hset | ⟨hl', ht'⟩
    · obtain ⟨hl₂, ht₂⟩ := ha.leader_stays hm hl hset
      exact .inr ⟨hl₂, ht₂.trans ht⟩
    · exact .inl ⟨hl', ht'.trans ht⟩

/-- The node leads a term after an action. -/
lemma leader_tail (hl : r₂.state = .leader) :
    Settled m r₂ ∨ r.state = .leader ∧ r.term = r₂.term := by
  rcases ha.frame.leader hl with hset | ⟨hl₁, hterm⟩
  · exact .inl (ha.settled hset)
  · rcases h.leader hl₁ with hset | hlead
    · exact .inl (ha.settled hset)
    · rw [hterm]
      exact .inr hlead

/-- What was sent before an action, seen from the state after it. -/
lemma sentBy_mono (hm : m.WF) {x : Message} (hx : SentBy m r r₁ x) : SentBy m r r₂ x where
  passedOn := hx.passedOn
  own hf := ⟨(hx.own hf).1.trans (ha.term_le hm.heartbeat), (hx.own hf).2⟩
  leader hf := h.led ha hm (hx.leader hf)
  answer := hx.answer

/-- What an action sends, seen from the start of the reaction. -/
lemma sentBy_of_sent (hm : m.WF) {x : Message} (hx : Sent m r₁ x) : SentBy m r r₂ x where
  passedOn hf := by
    obtain ⟨hpass, htype, hterm, hto, hne⟩ := hx.passedOn hf
    refine ⟨htype, hterm, fun h0 => ?_⟩
    rw [← (h.passedOn (htype ▸ hpass) h0).1]
    exact ⟨hto, hne⟩
  own hf := by
    obtain ⟨hterm, hfrom⟩ := hx.own hf
    exact ⟨hterm.trans_le (ha.term_le hm.heartbeat), hfrom.trans h.id⟩
  leader hf := by
    rw [(hx.own (MessageType.isLocal_of_isOfLeader hf)).1]
    exact h.led ha hm (.inr ⟨hx.leader hf, rfl⟩)
  answer hf := by
    obtain ⟨hto, hlocal, hterm⟩ := hx.answer hf
    refine ⟨hto, hlocal, hterm.imp_right fun hle => ?_⟩
    exact (hx.own (MessageType.isLocal_of_isAnswer hf)).1.trans_le hle

/-- One more action. -/
lemma tail (hm : m.WF) : Trail m r r₂ := by
  have hact := ha.leadAction
  refine ⟨ha.frame.kept.id.trans h.id, h.term_le.trans (ha.term_le hm.heartbeat), h.leader_tail ha,
    ?_, ?_, fun hp h0 => ?_⟩
  · rcases hact.lead with hnone | ⟨hlead, hterm⟩ | ⟨hlead, hn⟩ | ⟨hlead, hl⟩
    · exact .inl hnone
    · rw [hlead, hterm]
      refine h.lead.imp_right (Or.imp_right (Or.imp_right ?_))
      rintro ⟨hown, hled⟩
      exact ⟨hown, h.led ha hm hled⟩
    · exact .inr (.inr (.inl ⟨hlead, hn.of_le h.term_le⟩))
    · exact .inr (.inr (.inr ⟨hlead.trans h.id, .inr ⟨hl, rfl⟩⟩))
  · obtain ⟨ms₁, hms₁, hsent₁⟩ := h.msgs
    obtain ⟨ms₂, hms₂, hsent₂⟩ := hact.msgs
    refine ⟨ms₁ ++ ms₂, by rw [hms₂, hms₁, append_assoc], fun x hx => ?_⟩
    rcases mem_append.1 hx with hx | hx
    · exact h.sentBy_mono ha hm (hsent₁ x hx)
    · exact h.sentBy_of_sent ha hm (hsent₂ x hx)
  · obtain ⟨hlead, hterm⟩ := h.passedOn hp h0
    obtain ⟨hlead', hterm'⟩ := hact.passedOn hp h0
    exact ⟨hlead'.trans hlead, hterm'.trans hterm⟩

end Trail

lemma Actions.trail (ha : Actions m r r') (hm : m.WF) : Trail m r r' :=
  ha.invariant (fun _ _ hlast h => h.tail hlast hm) (Trail.refl m r)

end Raft

/-! ## The invariant -/

/-- What a message says about the leader of its term. -/
structure Message.LeadOk (a : History) (x : Message) : Prop where
  passedOn : x.type.isLocal = true → x.term = 0
  sender : x.type.isLocal = false → x.term ≤ a.term x.fromID
  leader : x.type.isOfLeader = true → a.elected x.term = some x.fromID
  answer : x.type.isAnswer = true → x.term ≤ a.term x.toID

lemma Message.LeadOk.mono {a b : History} {x : Message} (h : x.LeadOk a) (hab : Extends a b) :
    x.LeadOk b where
  passedOn := h.passedOn
  sender hx := (h.sender hx).trans (hab.term _)
  leader hx := hab.elected _ _ (h.leader hx)
  answer hx := (h.answer hx).trans (hab.term _)

/-- Only a leader's message carries a higher term than the one of its addressee, vote requests
apart. -/
lemma Message.LeadOk.isOfLeader_of_lt {a : History} {x : Message} (h : x.LeadOk a)
    (hlt : a.term x.toID < x.term) (hvote : x.type ≠ .msgVote) (hpre : x.type ≠ .msgPreVote) :
    x.type.isOfLeader = true ∨ x.type.isLocal = true := by
  by_cases hans : x.type.isAnswer = true
  · exact absurd (h.answer hans) (not_le.2 hlt)
  · cases ht : x.type <;> simp_all [MessageType.isOfLeader, MessageType.isAnswer,
      MessageType.isLocal]

/-- The known leader of a node was elected in its term, and its messages say the truth. -/
structure Raft.LeadOk (a : History) (r : Raft) : Prop where
  lead : r.lead ≠ noneID → a.elected r.term = some r.lead
  msgs : ∀ x ∈ r.msgs, x.LeadOk a

/-- The invariant of the runs. -/
structure Cluster.LeadOk (a : History) (s : Cluster) : Prop where
  nodes : ∀ i n, s.nodes.lookup i = some n → n.raft.LeadOk a
  net : ∀ x ∈ s.net, x.LeadOk a

namespace Raft

variable {ids : Finset ℕ} {a b : History} {i : ℕ} {r r' : Raft} {m : Message}

lemma LeadOk.mono (h : r.LeadOk a) (hab : Extends a b) : r.LeadOk b :=
  ⟨fun hl => hab.elected _ _ (h.lead hl), fun x hx => (h.msgs x hx).mono hab⟩

/-- A node that has led a term in a reaction is the leader of the history. -/
lemma Led.elected {t : ℕ} (h : Led r r' t) (hr : r.Refines ids a i) (hr' : r'.Refines ids b i)
    (hab : Extends a b) : b.elected t = some i := by
  rcases h with ⟨hl, rfl⟩ | ⟨hl, rfl⟩
  · exact hab.elected _ _ (hr.leader.1 hl)
  · exact hr'.leader.1 hl

/-- The message that names the leader was sent by it. -/
lemma Names.elected {t : ℕ} (h : Names m r.term t) (hr : r.Refines ids a i)
    (hm : m.OkFor ids a i) (hok : m.LeadOk a) : a.elected t = some m.fromID := by
  rcases h with ⟨hlead, hterm⟩ | ⟨hlt, rfl, hvote, hpre⟩
  · have hof := MessageType.isOfLeader_of_isLeaders hlead
    have hpos := hm.ok.term_pos (MessageType.isLocal_of_isOfLeader hof)
    obtain rfl : m.term = t := by omega
    exact hok.leader hof
  · by_cases hlocal : m.type.isLocal = true
    · have := hok.passedOn hlocal
      omega
    · have hto := hm.toID (by simpa using hlocal)
      have hlt' : a.term m.toID < m.term := by
        rw [hto, hr.term]
        exact hlt
      exact hok.leader ((hok.isOfLeader_of_lt hlt' hvote hpre).resolve_right hlocal)

/-- **A reaction keeps the invariant.** -/
lemma Trail.leadOk (ht : Trail m r r') (h : r.LeadOk a) (hr : r.Refines ids a i)
    (hr' : r'.Refines ids b i) (hab : Extends a b) (hm : m.OkFor ids a i) (hok : m.LeadOk a) :
    r'.LeadOk b := by
  refine ⟨fun hne => ?_, fun x hx => ?_⟩
  · rcases ht.lead with hnone | ⟨hlead, hterm⟩ | ⟨hlead, hn⟩ | ⟨hlead, hled⟩
    · exact absurd hnone hne
    · rw [hlead] at hne ⊢
      rw [hterm]
      exact hab.elected _ _ (h.lead hne)
    · rw [hlead]
      exact hab.elected _ _ (hn.elected hr hm hok)
    · rw [hlead, hr.id]
      exact hled.elected hr hr' hab
  · obtain ⟨ms, hms, hsent⟩ := ht.msgs
    rw [hms] at hx
    rcases mem_append.1 hx with hx | hx
    · exact (h.msgs x hx).mono hab
    · replace hx := hsent x hx
      refine ⟨fun hf => ?_, fun hf => ?_, fun hf => ?_, fun hf => ?_⟩
      · obtain ⟨htype, hterm, -⟩ := hx.passedOn hf
        rw [hterm]
        exact hok.passedOn (htype ▸ hf)
      · obtain ⟨hterm, hfrom⟩ := hx.own hf
        rw [hfrom, hr.id, hr'.term]
        exact hterm
      · rw [(hx.own (MessageType.isLocal_of_isOfLeader hf)).2, hr.id]
        exact (hx.leader hf).elected hr hr' hab
      · -- an answer is of the term of its question, which its sender has reached
        obtain ⟨hto, hlocal, hterm⟩ := hx.answer hf
        have hpos := hm.ok.term_pos hlocal
        have hsender := hok.sender hlocal
        have hgrow := hab.term m.fromID
        rw [hto]
        omega

end Raft

namespace FixedCluster

variable {c : FixedCluster} {s s' : Cluster} {ev : Event} {a b : History}

/-- What an event makes a node react to says the truth about the leaders. -/
lemma leadOk_of_gives (h : s.LeadOk a) {i : ℕ} {m : Message} (hm : ev.Gives s i m) :
    m.LeadOk a := by
  have hzero : ∀ {x : Message}, x.type.isLocal = true → x.term = 0 → x.LeadOk a := by
    intro x hlocal h0
    refine ⟨fun _ => h0, fun hf => ?_, fun hf => ?_, fun hf => ?_⟩
    · simp [hlocal] at hf
    · simp [MessageType.isLocal_of_isOfLeader hf] at hlocal
    · simp [MessageType.isLocal_of_isAnswer hf] at hlocal
  cases ev with
  | tick j =>
    obtain ⟨-, ht, h0⟩ := hm
    refine hzero ?_ h0
    rcases ht with ht | ht
    all_goals rw [ht]; rfl
  | campaign j | propose j | proposeConfChange j | readIndex j =>
    obtain ⟨-, rfl⟩ := hm
    exact hzero rfl rfl
  | deliver m₀ =>
    obtain ⟨hmem, -, rfl⟩ := hm
    exact h.net m hmem
  | deliverStep m₀ =>
    obtain ⟨hmem, -, rfl | ⟨hprop, rfl⟩⟩ := hm
    · exact h.net m hmem
    · have hlocal : m₀.type.isLocal = true := by rw [hprop]; rfl
      exact hzero hlocal ((h.net m₀ hmem).passedOn hlocal)
  | ready | advance | applyConfChange | restart => exact absurd hm id

/-- **Every event keeps the invariant.** -/
lemma leadOk_change (hev : ev.isFixed = true) (hc : c.Change s ev s')
    (hs : s.Refines c.nodeSet a) (hs' : s'.Refines c.nodeSet b) (hab : Extends a b)
    (h : s.LeadOk a) : s'.LeadOk b := by
  have hnodes : ∀ i n, s.nodes.lookup i = some n → n.raft.LeadOk b :=
    fun i n hn => (h.nodes i n hn).mono hab
  refine ⟨?_, hc.forall_net (fun x hx => (h.net x hx).mono hab) fun i n hn => (hnodes i n hn).msgs⟩
  cases hc with
  | skip => exact hnodes
  | idle i n rd hn => exact Cluster.forall_insert hnodes (hnodes i n hn)
  | react i n m rd r hn hrd hm ha =>
    have hgiven := given_of_event hm
    have htrail := ha.trail (ClusterConfig.wf_of_given hs.wf hgiven)
    have hr' := (hs'.nodes i _ (AList.lookup_insert _)).raft
    exact Cluster.forall_insert hnodes (htrail.leadOk (h.nodes i n hn) (hs.nodes i n hn).raft hr'
      hab (hs.okFor hgiven) (leadOk_of_gives h hm))
  | ready i n rd hn =>
    exact Cluster.forall_insert hnodes ⟨(hnodes i n hn).lead, by simp [Node.takeReady]⟩
  | advance i n n' hn hout ha =>
    obtain ⟨l, rfl⟩ := Node.takeAdvance_ok ha
    exact Cluster.forall_insert hnodes ⟨(hnodes i n hn).lead, (hnodes i n hn).msgs⟩
  | conf _ _ _ _ _ h | restart _ _ _ _ _ h => simp [h, Event.isFixed] at hev

lemma leadOk_begun (h : c.Begun s) : s.LeadOk a where
  nodes i n hn := by
    obtain ⟨-, hst⟩ := h.nodes i n hn
    exact ⟨fun hl => absurd hst.lead hl, by simp [hst.msgs]⟩
  net := by simp [h.net]

/-- **The invariant holds in every run.** -/
theorem exec_leadOk (c : FixedCluster) (evs : List Event)
    (hfixed : ∀ ev ∈ evs, ev.isFixed = true) :
    Ensures (c.exec evs) fun s => s.Sane ∧
      ∃ a, s.Refines c.nodeSet a ∧ c.Recorded evs a ∧ s.LeadOk a :=
  c.exec_refines_and (fun a s => s.LeadOk a) (fun _ h => leadOk_begun h)
    (fun _ _ _ _ _ hev hc hs hs' hab h => leadOk_change hev hc hs hs' hab h) evs hfixed

/-- Node `x` was leader of term `t` after some part of the run. -/
def HasLed (c : FixedCluster) (evs : List Event) (x t : ℕ) : Prop :=
  ∃ evs₁ s₁, evs₁ <+: evs ∧ c.exec evs₁ = .ok s₁ ∧ s₁.Leads x t

lemma Recorded.hasLed {evs : List Event} (h : c.Recorded evs a) {x t : ℕ}
    (hel : a.elected t = some x) : c.HasLed evs x t := by
  obtain ⟨evs₁, s₁, n, hpre, hs₁, hn, hl, ht, -⟩ := h t x hel
  exact ⟨evs₁, s₁, hpre, hs₁, n, hn, hl, ht⟩

end FixedCluster

/-! ## Messages that are passed on -/

/-- The proposals and reads among the messages that a node has sent from state `n` to `n'`. -/
def Node.passedOn (n n' : Node) : List Message :=
  (n'.raft.msgs.drop n.raft.msgs.length).filter fun m => m.type.isPassedOn

namespace FixedCluster

variable {c : FixedCluster} {s s' : Cluster} {ev : Event} {a b : History}

/-- **A node passes a proposal or a read on to the leader that it knows**, and stays in its
term. -/
lemma lead_of_passedOn (hev : ev.isFixed = true) (hc : c.Change s ev s')
    (hs : s.Refines c.nodeSet a) (h : s.LeadOk a) {i : ℕ} {n n' : Node}
    (hn : s.nodes.lookup i = some n) (hn' : s'.nodes.lookup i = some n') {x : Message}
    (hx : x ∈ n.passedOn n') :
    x.toID = n.raft.lead ∧ n.raft.lead ≠ noneID ∧ n'.raft.term = n.raft.term := by
  have hquiet : ∀ {n₁ : Node}, n₁.raft.msgs.length ≤ n.raft.msgs.length →
      x ∉ n.passedOn n₁ := by
    intro n₁ hle hx
    unfold Node.passedOn at hx
    rw [drop_eq_nil_of_le hle] at hx
    cases hx
  -- only the node that the event is for can have sent something
  have hnode : ∀ {j : ℕ} {n₁ : Node}, (s.nodes.insert j n₁).lookup i = some n' →
      j = i ∧ n' = n₁ := by
    intro j n₁ hl
    rcases eq_or_ne j i with rfl | hne
    · rw [AList.lookup_insert] at hl
      exact ⟨rfl, (Option.some.inj hl).symm⟩
    · rw [AList.lookup_insert_ne (Ne.symm hne), hn] at hl
      cases hl
      exact absurd hx (hquiet le_rfl)
  cases hc with
  | skip =>
    rw [hn] at hn'
    cases hn'
    exact absurd hx (hquiet le_rfl)
  | idle j n₀ rd hj =>
    obtain ⟨rfl, rfl⟩ := hnode hn'
    rw [hn] at hj
    cases hj
    exact absurd hx (hquiet le_rfl)
  | react j n₀ m rd r hj hrd hm ha =>
    obtain ⟨rfl, rfl⟩ := hnode hn'
    rw [hn] at hj
    cases hj
    have htrail := ha.trail (ClusterConfig.wf_of_given hs.wf (given_of_event hm))
    obtain ⟨ms, hms, hsent⟩ := htrail.msgs
    unfold Node.passedOn at hx
    rw [hms, drop_left, mem_filter] at hx
    obtain ⟨hx, hpass⟩ := hx
    have hlocal := MessageType.isLocal_of_isPassedOn hpass
    obtain ⟨htype, -, hto⟩ := (hsent x hx).passedOn hlocal
    have h0 := (leadOk_of_gives h hm).passedOn (htype ▸ hlocal)
    exact ⟨(hto h0).1, (hto h0).2, (htrail.passedOn (htype ▸ hpass) h0).2⟩
  | ready j n₀ rd hj =>
    obtain ⟨rfl, rfl⟩ := hnode hn'
    exact absurd hx (hquiet (Nat.zero_le _))
  | advance j n₀ n₁ hj hout ha =>
    obtain ⟨rfl, rfl⟩ := hnode hn'
    rw [hn] at hj
    cases hj
    obtain ⟨l, rfl⟩ := Node.takeAdvance_ok ha
    exact absurd hx (hquiet le_rfl)
  | conf _ _ _ _ _ h | restart _ _ _ _ _ h => simp [h, Event.isFixed] at hev

end FixedCluster

/-- **The known leader is right.** In every state of a run with fixed membership and without
restarts, a node's known leader was elected in the node's term; two nodes of one term that
know a leader know the same one; and whatever event comes next, the proposals and reads that
it makes a node pass on go to the leader of the term that the node is in.

**Proof sketch.** The history of the run has one leader a term. By the invariant
`Cluster.LeadOk` it is the one that every node of the term knows. -/
theorem leader_pointer_sound (c : FixedCluster) (evs : List Event)
    (hfixed : ∀ ev ∈ evs, ev.isFixed = true) (s : Cluster) (hs : c.exec evs = .ok s) :
    (∀ i n, s.nodes.lookup i = some n → n.raft.lead ≠ noneID →
      c.HasLed evs n.raft.lead n.raft.term) ∧
    (∀ i j n n', s.nodes.lookup i = some n → s.nodes.lookup j = some n' →
      n.raft.term = n'.raft.term → n.raft.lead ≠ noneID → n'.raft.lead ≠ noneID →
      n.raft.lead = n'.raft.lead) ∧
    (∀ ev s', ev.isFixed = true → c.step s ev = .ok s' → ∀ i n n',
      s.nodes.lookup i = some n → s'.nodes.lookup i = some n' → ∀ m ∈ n.passedOn n',
      n'.raft.term = n.raft.term ∧ c.HasLed evs m.toID n.raft.term) := by
  obtain ⟨hsane, a, ha, hrec, hlead⟩ := c.exec_leadOk evs hfixed s hs
  refine ⟨fun i n hn hne => ?_, fun i j n n' hn hn' hterm hne hne' => ?_, ?_⟩
  · exact hrec.hasLed ((hlead.nodes i n hn).lead hne)
  · have hi := (hlead.nodes i n hn).lead hne
    have hj := (hlead.nodes j n' hn').lead hne'
    rw [hterm, hj] at hi
    exact (Option.some.inj hi).symm
  · intro ev s' hev hstep i n n' hn hn' m hm
    have hc := ClusterConfig.step_change hsane s' hstep
    obtain ⟨hto, hne, hterm⟩ := FixedCluster.lead_of_passedOn hev hc ha hlead hn hn' hm
    rw [hto]
    exact ⟨hterm, hrec.hasLed ((hlead.nodes i n hn).lead hne)⟩

/-- Node `2` passes a proposal on to node `1`, which has led term `2`. -/
theorem leader_pointer_sound_proposal : ∃ s s' n n' m,
    FixedCluster.pair.exec hearOfLeader = .ok s ∧
    FixedCluster.pair.step s (.propose 2 [7]) = .ok s' ∧
    s.nodes.lookup 2 = some n ∧ s'.nodes.lookup 2 = some n' ∧ n.raft.lead = 1 ∧
    m ∈ n.passedOn n' ∧ m.toID = 1 ∧ n.raft.term = 2 ∧
    FixedCluster.pair.HasLed hearOfLeader m.toID n.raft.term := by
  refine ⟨_, _, _, _, _, rfl, rfl, rfl, rfl, rfl, mem_singleton.2 rfl, rfl, rfl, ?_⟩
  exact ((leader_pointer_sound _ hearOfLeader (by decide) _ rfl).2.2 (.propose 2 [7]) _ rfl rfl
    2 _ _ rfl rfl _ (mem_singleton.2 rfl)).2

end Yukino.Replica
