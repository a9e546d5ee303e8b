import Yukino.Raft.ClusterSpec
import Yukino.Raft.LogSpec

set_option autoImplicit false

/-!
# Delivery of committed entries

A node hands out the committed entries of its log in order, each of them once, and what it
has handed out stays in its log. This needs nothing of the other nodes but that the entries
of a `MsgApp` have consecutive indices: it holds under any membership changes, and whatever
happens between a `Ready` and its `Advance`.

## Main definitions

* `Message.WF` — the entries of a `MsgApp` follow its `LogIndex`.
* `Node.WF` — the log, the indices and the outstanding `Ready` of a node fit together, and the
  delivered entries are the beginning of the log.

## Main results

* `ClusterConfig.exec_wf` — in every run all nodes and messages are well formed.
* `delivered_exactly_once` — exactly-once delivery in order.
-/

namespace Yukino.Replica

open Consensus Outcome List

/-- The entries of a `MsgApp` have the indices after `LogIndex`, and a heartbeat has a
term. -/
structure Message.WF (m : Message) : Prop where
  entries : m.type = .msgApp → Consec (m.logIndex + 1) m.entries
  heartbeat : m.type = .msgHeartbeat → 1 ≤ m.term

/-- The answers to a message of another node. -/
def MessageType.isAnswer : MessageType → Bool
  | .msgAppResp | .msgVoteResp | .msgPreVoteResp | .msgHeartbeatResp => true
  | _ => false

namespace Raft

variable {m : Message} {r r' : Raft}

lemma length_filterConf (pending : Bool) (xs : List Entry) :
    (filterConf pending xs).1.length = xs.length := by
  induction xs generalizing pending with
  | nil => rfl
  | cons e es ih =>
    unfold filterConf
    split_ifs <;> rw [length_cons, ih, length_cons]

lemma filterConf_ne {pending : Bool} {xs : List Entry} (hne : xs ≠ []) :
    (filterConf pending xs).1 ≠ [] := by
  rw [← length_pos_iff, length_filterConf]
  exact length_pos_iff.2 hne

lemma stampEntries_ne (r : Raft) {xs : List Entry} (hne : xs ≠ []) : r.stampEntries xs ≠ [] := by
  rw [← length_pos_iff, stampEntries, length_mapIdx]
  exact length_pos_iff.2 hne

/-! ## The log, the reads and the messages -/

/-- What an action makes of the log. -/
inductive LogChange (m : Message) (r : Raft) (l : RaftLog) : Prop
  | same (hl : l = r.raftLog)
  | append {es : List Entry} (hne : r.stampEntries es ≠ [])
      (hl : r.raftLog.append (r.stampEntries es) = .ok l)
  | commit {k : ℕ} {b : Bool} (hl : r.raftLog.maybeCommit k r.term = .ok (l, b))
  | accept {k : ℕ} (hm : m.type = .msgApp)
      (hl : r.raftLog.maybeAppend m.logIndex m.logTerm m.commitIndex m.entries = .ok (some (l, k)))
  | learn {k : ℕ} (hl : r.raftLog.commitTo k = .ok l)

/-- What an action makes of the pending reads. -/
inductive ReadChange (m : Message) (r : Raft) (ro : ReadOnly) : Prop
  | same (h : ro = r.readOnly)
  | add {e : Entry} {es : List Entry} {k : ℕ} (he : m.entries = e :: es)
      (h : ro = (r.readOnly.addRequest e.data k m).1)
  | ack (h : ro = (r.readOnly.recvAck m.context m.fromID).1)
  | release {rss : List ReadIndexStatus}
      (h : (r.readOnly.recvAck m.context m.fromID).1.advance m.context = .ok (ro, rss))

/-- A message that an action sends, before it is stamped. -/
inductive Says (m : Message) (r : Raft) (x : Message) : Prop
  | request (hfrom : x.fromID = noneID) (hx : x.type = .msgVote ∨ x.type = .msgPreVote)
  | append {pr : Progress} (hfrom : x.fromID = noneID) (hx : x.type = .msgApp)
      (h : r.state = .leader) (hi : x.logIndex = pr.next - 1)
      (hes : r.raftLog.entriesFrom pr.next = .ok x.entries)
  | heartbeat (hfrom : x.fromID = noneID) (hx : x.type = .msgHeartbeat) (h : r.state = .leader)
  | answer (hfrom : x.fromID = noneID) (hx : x.type.isAnswer = true) (hto : x.toID = m.fromID)
      (hm : m.type.isLocal = false) (hterm : m.term = 0 ∨ r.term ≤ m.term)
  | forward (hm : m.type = .msgProp ∨ m.type = .msgReadIndex) (hlead : r.lead ≠ noneID)
      (hx : x = { m with toID := r.lead })
  | read {ro : ReadOnly} {rss : List ReadIndexStatus} {rs : ReadIndexStatus}
      (h : r.state = .leader) (hrs : rs ∈ rss) (hx : x = readAnswer rs)
      (hadv : (r.readOnly.recvAck m.context m.fromID).1.advance m.context = .ok (ro, rss))

/-- What every action does to the log, the pending reads and the messages. -/
structure Effect (m : Message) (r r' : Raft) : Prop where
  log : LogChange m r r'.raftLog
  reads : ReadChange m r r'.readOnly
  msgs : ∃ ms, r'.msgs = r.msgs ++ ms ∧ ∀ x ∈ ms, ∃ y, Says m r y ∧ x = r.stamp y

/-- An action that sends nothing. -/
lemma Effect.silent (hlog : LogChange m r r'.raftLog) (hreads : ReadChange m r r'.readOnly)
    (hmsgs : r'.msgs = r.msgs) : Effect m r r' :=
  ⟨hlog, hreads, [], by rw [hmsgs, append_nil], by simp⟩

/-- An action that sends one message. -/
lemma Effect.send {x : Message} (hlog : LogChange m r r'.raftLog)
    (hreads : r'.readOnly = r.readOnly) (hmsgs : r'.msgs = r.msgs ++ [r.stamp x])
    (hx : Says m r x) : Effect m r r' :=
  ⟨hlog, .same hreads, [r.stamp x], hmsgs, by simpa using ⟨x, hx, rfl⟩⟩

lemma Action.effect (ha : Action m r r') : Effect m r r' := by
  have hge : Current m r → m.term = 0 ∨ r.term ≤ m.term := fun h => h.imp_right fun h => h.ge
  cases ha with
  | aux | follow | preCandidate | candidate | lead | readResp | readSingle | progress =>
    exact .silent (.same rfl) (.same rfl) rfl
  | pollSelf | pollResp =>
    rw [poll_eq]
    exact .silent (.same rfl) (.same rfl) rfl
  | append xs _ _ _ hne hx =>
    obtain ⟨l, pr, hl, -, rfl⟩ := extendLog_eq_ok hx
    exact .silent (.append (stampEntries_ne _ (filterConf_ne hne)) hl) (.same rfl) rfl
  | commit _ _ _ hl => exact .silent (.commit hl) (.same rfl) rfl
  | voteRequest typ =>
    refine .send (.same rfl) rfl rfl (.request rfl ?_)
    cases typ <;> simp [Raft.voteRequest, campaignMsgType]
  | heartbeat _ _ h => exact .send (.same rfl) rfl rfl (.heartbeat rfl rfl h)
  | sendAppend _ h _ _ hes => exact .send (.same rfl) rfl rfl (.append rfl rfl h rfl hes)
  | accept _ hm hcur hl =>
    exact .send (.accept hm hl) rfl rfl (.answer rfl rfl rfl (by rw [hm]; rfl) (hge hcur))
  | refuse _ hm hcur =>
    exact .send (.same rfl) rfl rfl (.answer rfl rfl rfl (by rw [hm]; rfl) (hge hcur))
  | learn _ hm hcur hl =>
    exact .send (.learn hl) rfl rfl (.answer rfl rfl rfl (by rw [hm]; rfl) (hge hcur))
  | forward hm hlead => exact .send (.same rfl) rfl rfl (.forward hm hlead rfl)
  | grant hm hcur =>
    exact .send (.same rfl) rfl rfl (.answer rfl rfl rfl (by rw [hm]; rfl) (hge hcur))
  | answerVote x hm hterm hfrom hto hx =>
    refine .send (.same rfl) rfl rfl (.answer hfrom ?_ hto ?_ hterm)
    · rcases hx with hx | ⟨hx, -⟩
      all_goals rw [hx]; rfl
    · rcases hm with hm | hm
      all_goals rw [hm]; rfl
  | addRead e es _ _ he => exact .silent (.same rfl) (.add he rfl) rfl
  | ackRead => exact .silent (.same rfl) (.ack rfl) rfl
  | release states ms h _ _ hadv hms =>
    refine ⟨.same rfl, .release hadv, ms, rfl, fun x hx => ?_⟩
    obtain ⟨rs, hrs, rfl⟩ := hms x hx
    exact ⟨_, .read h hrs rfl hadv, rfl⟩

/-! ## The log of a node -/

/-- The parts of the log fit together, and so do the messages that wait to be handed out. -/
structure LogWF (r : Raft) : Prop where
  log : r.raftLog.WF
  term_pos : 1 ≤ r.term
  msgs : ∀ m ∈ r.msgs, m.WF

lemma stamp_wf (h : m.type = .msgApp → Consec (m.logIndex + 1) m.entries)
    (hterm : 1 ≤ r.term) : (r.stamp m).WF := by
  refine ⟨fun ht => ?_, fun ht => ?_⟩
  · rw [stamp_type] at ht
    rw [stamp_entries, stamp_logIndex]
    exact h ht
  · rw [stamp_type] at ht
    rw [stamp_term _ _ (by simp [ht]) (by simp [ht])]
    exact hterm

lemma consec_stampEntries (h : r.raftLog.WF) (es : List Entry) :
    Consec (r.raftLog.abs.length + 1) (r.stampEntries es) := by
  intro k e he
  unfold stampEntries at he
  rw [getElem?_mapIdx, Option.map_eq_some_iff] at he
  obtain ⟨x, -, rfl⟩ := he
  dsimp only
  rw [h.lastIndex_eq]
  omega

/-- A node that is among its peers can always append to its log. -/
lemma extendLog_eq (h : r.raftLog.WF) {es : List Entry} (hne : es ≠ []) {pr : Progress}
    (hpr : r.prs.lookup r.id = some pr) :
    ∃ u, r.extendLog es = .ok { r with
        raftLog := { r.raftLog with unstable := u }
        prs := r.prs.insert r.id (pr.maybeUpdate (r.raftLog.abs.length + es.length)).1 } ∧
      RaftLog.WF { r.raftLog with unstable := u } ∧
      RaftLog.abs { r.raftLog with unstable := u } =
        r.raftLog.abs ++ r.stampEntries es := by
  obtain ⟨u, hu, hwf, habs, -, -⟩ := h.append_ok (stampEntries_ne r hne) (consec_stampEntries h es)
    (Nat.lt_succ_of_le h.commit_le) le_rfl
  rw [Nat.add_sub_cancel, take_length] at habs
  refine ⟨u, ?_, hwf, habs⟩
  unfold extendLog
  rw [hu, ok_bind, hpr]
  rw [hwf.lastIndex_eq, habs, length_append, stampEntries, length_mapIdx]

/-- The commit index of a leader moves to an index of its term, or stays. There is a progress for
every index below the quorum, and what is not in the log is not of the current term. -/
lemma maybeCommit_returns (h : r.raftLog.WF) (ht : r.raftLog.TermsOk) (hterm : 1 ≤ r.term)
    (hpos : 0 < r.prs.keys.length) : Returns r.maybeCommit fun x => x.1.raftLog.WF ∧
      ∃ k, x.1 = { r with raftLog := { r.raftLog with commitIndex := k } } := by
  have hlen : ((r.prs.entries.map fun pr => pr.2.matchIndex).insertionSort (· ≥ ·)).length =
      r.prs.keys.length := by
    rw [length_insertionSort, length_map, AList.keys, keys, length_map]
  have hlt : r.quorum - 1 < ((r.prs.entries.map fun pr => pr.2.matchIndex).insertionSort
      (· ≥ ·)).length := by
    rw [quorum]
    omega
  unfold Raft.maybeCommit
  dsimp only
  rw [getElem?_eq_getElem hlt]
  dsimp only
  have hwf := RaftLog.WF.maybeCommit_ensures r.raftLog
    (((r.prs.entries.map fun pr => pr.2.matchIndex).insertionSort (· ≥ ·))[r.quorum - 1]) r.term
  rw [h.maybeCommit_eq ht hterm] at hwf ⊢
  split at hwf
  · rename_i hnew
    rw [if_pos hnew]
    exact .ok ⟨(hwf _ rfl).2.2 h, _, rfl⟩
  · rename_i hold
    rw [if_neg hold]
    exact .ok ⟨h, r.raftLog.commitIndex, rfl⟩

/-- What a leader sends from an index on are the entries of its log. -/
lemma entriesFrom_eq {l : RaftLog} (h : l.WF) {i : ℕ} {es : List Entry}
    (hes : l.entriesFrom i = .ok es) : ∃ k, es = (l.abs.drop (i - 1)).take k := by
  unfold RaftLog.entriesFrom at hes
  split at hes
  · cases hes
    exact ⟨0, rfl⟩
  · obtain ⟨hpos, hle, hend⟩ := h.slice_bounds hes
    rw [h.slice_eq hpos hle hend] at hes
    cases hes
    exact ⟨_, rfl⟩

lemma Says.exists_entries {x : Message} (h : Says m r x) (hwf : r.raftLog.WF)
    (hx : x.type = .msgApp) : ∃ k, x.entries = (r.raftLog.abs.drop x.logIndex).take k := by
  cases h with
  | append _ _ _ hi hes =>
    rw [hi]
    exact entriesFrom_eq hwf hes
  | request _ ht => simp [hx] at ht
  | heartbeat _ ht => simp [hx] at ht
  | answer _ ht => simp [hx, MessageType.isAnswer] at ht
  | forward hm _ ht =>
    rw [ht] at hx
    simp [show m.type = .msgApp from hx] at hm
  | read _ _ ht =>
    rw [ht] at hx
    cases hx

lemma LogChange.wf {l : RaftLog} (hc : LogChange m r l) (h : r.raftLog.WF) (hm : m.WF) :
    l.WF ∧ r.raftLog.Grows l := by
  cases hc with
  | same hl =>
    rw [hl]
    exact ⟨h, RaftLog.Grows.refl _⟩
  | append hne hl =>
    exact (h.append_grows hne (consec_stampEntries h _) (by omega) l hl).imp_right And.left
  | commit hl => exact (RaftLog.WF.maybeCommit_ensures _ _ _ _ hl).2.symm.imp_left (· h)
  | accept ht hl => exact (h.maybeAppend_ensures (hm.entries ht) _ hl _ _ rfl).imp_right And.left
  | learn hl => exact (RaftLog.WF.commitTo_ensures _ _ _ hl).2.symm.imp_left (· h)

/-- **An action keeps the log well formed**, and only makes it grow. -/
lemma Action.logWF (ha : Action m r r') (h : r.LogWF) (hm : m.WF) :
    r'.LogWF ∧ r.raftLog.Grows r'.raftLog := by
  obtain ⟨hlog, -, ms, hms, hsays⟩ := ha.effect
  obtain ⟨hwf, hgrows⟩ := hlog.wf h.log hm
  refine ⟨⟨hwf, h.term_pos.trans (ha.term_le hm.heartbeat), fun x hx => ?_⟩, hgrows⟩
  rw [hms] at hx
  rcases mem_append.1 hx with hx | hx
  · exact h.msgs x hx
  · obtain ⟨y, hy, rfl⟩ := hsays x hx
    refine stamp_wf (fun ht => ?_) h.term_pos
    obtain ⟨k, hk⟩ := hy.exists_entries h.log ht
    rw [hk, Nat.add_comm]
    exact (h.log.consec_abs.drop y.logIndex).take k

/-- A leader stays leader of its term until it hears of a higher one, and meanwhile its log
and its flag only change when it appends to its log. -/
lemma Action.of_leader (ha : Action m r r') (hm : m.WF) (hl : r.state = .leader) :
    (r.term < r'.term ∧ ¬ Settled m r) ∨ r'.state = .leader ∧ r'.term = r.term ∧
      ((∃ xs, xs ≠ [] ∧ { r with pendingConf := (filterConf r.pendingConf xs).2 }.extendLog
          (filterConf r.pendingConf xs).1 = .ok r') ∨
        r'.pendingConf = r.pendingConf ∧ r'.raftLog.abs = r.raftLog.abs) := by
  have hframe : ∀ {r₁ : Raft}, r₁.state = r.state → r₁.term = r.term →
      r₁.pendingConf = r.pendingConf → r₁.raftLog = r.raftLog →
      (r.term < r₁.term ∧ ¬ Settled m r) ∨ r₁.state = .leader ∧ r₁.term = r.term ∧
        ((∃ xs, xs ≠ [] ∧ { r with pendingConf := (filterConf r.pendingConf xs).2 }.extendLog
            (filterConf r.pendingConf xs).1 = .ok r₁) ∨
          r₁.pendingConf = r.pendingConf ∧ r₁.raftLog.abs = r.raftLog.abs) :=
    fun h1 h2 h3 h4 => .inr ⟨h1.trans hl, h2, .inr ⟨h3, by rw [h4]⟩⟩
  cases ha with
  | aux | voteRequest | heartbeat | sendAppend | forward | readSingle | grant | answerVote
  | addRead | progress | ackRead | release => exact hframe rfl rfl rfl rfl
  | follow t lead ht =>
    left
    rw [becomeFollower_term]
    rcases ht with ⟨-, hlt⟩ | ⟨-, hf⟩ | ⟨-, h0, hb⟩
    · exact hlt
    · exact absurd hl hf
    · have := hm.heartbeat hb
      omega
  | preCandidate h | candidate h => exact absurd hl h
  | pollSelf | pollResp =>
    rw [poll_eq]
    exact hframe rfl rfl rfl rfl
  | lead _ _ h => simp [hl] at h
  | append xs _ _ _ hne hx =>
    obtain ⟨l, pr, -, -, heq⟩ := extendLog_eq_ok hx
    exact .inr ⟨by rw [heq]; exact hl, by rw [heq], .inl ⟨xs, hne, hx⟩⟩
  | commit _ _ _ hc =>
    exact .inr ⟨hl, rfl, .inr ⟨rfl, (RaftLog.WF.maybeCommit_ensures _ _ _ _ hc).1⟩⟩
  | accept h | refuse h | learn h => simp [hl] at h
  | readResp e es h => simp [hl] at h

lemma Actions.logWF (ha : Actions m r r') (h : r.LogWF) (hm : m.WF) :
    r'.LogWF ∧ r.raftLog.Grows r'.raftLog :=
  ha.invariant (P := fun r' => r'.LogWF ∧ r.raftLog.Grows r'.raftLog)
    (fun _ _ hlast ih => ⟨(hlast.logWF ih.1 hm).1, ih.2.trans (hlast.logWF ih.1 hm).2⟩)
    ⟨h, RaftLog.Grows.refl _⟩

end Raft

/-! ## A node and its outstanding `Ready` -/

namespace Node

/-- The index of the first entry of the outstanding `Ready`. -/
def readyStart (n : Node) : ℕ := n.prevLastUnstableI + 1 - n.rd.entries.length

/-- The log at the time of the outstanding `Ready`, which `Advance` will save. -/
def readyLog (n : Node) : List Entry :=
  n.raft.raftLog.storage.entries.tail.take (n.readyStart - 1) ++ n.rd.entries

/-- The entries of an outstanding `Ready` can be saved, and saving them keeps what was
delivered. -/
structure Outstanding (n : Node) : Prop where
  consec : Consec n.readyStart n.rd.entries
  last : ∃ e, n.rd.entries.getLast? = some e ∧ n.prevLastUnstableI = e.index ∧
    n.prevLastUnstableT = e.term
  start_ge : n.raft.raftLog.unstable.offset ≤ n.readyStart
  start_le : n.readyStart ≤ n.raft.raftLog.storage.entries.length
  unstable_ne : n.raft.raftLog.unstable.entries ≠ []
  commit_le : n.prevHard.commitIndex ≤ n.readyLog.length
  delivered : n.readyLog.take n.prevHard.commitIndex = n.delivered

/-- The parts of a node fit together. -/
structure WF (n : Node) : Prop where
  raft : n.raft.LogWF
  delivered : n.delivered = n.raft.raftLog.abs.take n.prevHard.commitIndex
  apply_le : n.raft.raftLog.applyIndex ≤ n.prevHard.commitIndex
  commit_le : n.prevHard.commitIndex ≤ n.raft.raftLog.commitIndex
  idle : n.advanceChan = false →
    n.prevHard.commitIndex = n.raft.raftLog.applyIndex ∧ n.hasPrevLastUnstableI = false
  out_term : n.advanceChan = true → 1 ≤ n.prevHard.term
  /-- The saved commit index is one of a saved entry, and so is the one to be saved next. -/
  saved : n.raft.raftLog.storage.hardState.commitIndex < n.raft.raftLog.storage.entries.length
  unsaved : n.advanceChan = true → n.hasPrevLastUnstableI = false →
    n.prevHard.commitIndex < n.raft.raftLog.storage.entries.length
  outstanding : n.hasPrevLastUnstableI = true → n.Outstanding

/-- The log after an `Advance` that has saved entries up to `e` in the storage `st`. -/
def savedLog (n : Node) (st : MemoryStorage) (e : Entry) : RaftLog :=
  RaftLog.stableTo { n.raft.raftLog with
    applyIndex := n.prevHard.commitIndex
    storage := st } e.index e.term

/-- The log after an `Advance` that saves the entries of a `Ready` first taken from `l`. -/
structure Advanced (n : Node) (l' : RaftLog) : Prop where
  wf : l'.WF
  commitIndex : l'.commitIndex = n.raft.raftLog.commitIndex
  applyIndex : l'.applyIndex = n.prevHard.commitIndex
  hardState : l'.storage.hardState = n.prevHard
  stored : n.prevHard.commitIndex < l'.storage.entries.length
  dummy : l'.storage.entries[0]? = n.raft.raftLog.storage.entries[0]?
  abs : l'.abs = n.raft.raftLog.abs ∨
    n.hasPrevLastUnstableI = true ∧ n.readyLog.length ≤ n.raft.raftLog.abs.length ∧
      termAt n.raft.raftLog.abs n.readyLog.length = n.prevLastUnstableT ∧
      l'.abs = n.readyLog ++ n.raft.raftLog.abs.drop n.readyLog.length

namespace WF

variable {n : Node}

variable (h : n.WF)
include h

/-- Entries wait to be saved only while a `Ready` is outstanding. -/
lemma advanceChan_of_prev (hprev : n.hasPrevLastUnstableI = true) : n.advanceChan = true := by
  by_contra hf
  rw [Bool.not_eq_true] at hf
  rw [(h.idle hf).2] at hprev
  cases hprev

/-- The log of the node grows. -/
lemma grow {r : Raft} {rd : Ready} (hlog : r.LogWF)
    (hgrows : n.raft.raftLog.Grows r.raftLog) (hrd : n.advanceChan = true → rd = n.rd) :
    WF { n with rd := rd, raft := r } := by
  refine { raft := hlog, delivered := ?_, apply_le := ?_, commit_le := ?_, idle := ?_,
           out_term := h.out_term, saved := by rw [hgrows.storage]; exact h.saved,
           unsaved := by rw [hgrows.storage]; exact h.unsaved,
           outstanding := ?_ }
  · exact h.delivered.trans (hgrows.take_eq h.commit_le).symm
  · exact hgrows.applyIndex.trans_le h.apply_le
  · exact h.commit_le.trans hgrows.commit_le
  · intro hidle
    obtain ⟨h1, h2⟩ := h.idle hidle
    exact ⟨h1.trans hgrows.applyIndex.symm, h2⟩
  · intro hprev
    have hout := h.outstanding hprev
    cases hrd (h.advanceChan_of_prev hprev)
    -- the storage has not changed, so the log to be saved is the same
    have hsave : readyLog { n with raft := r } = n.readyLog := by
      unfold readyLog
      rw [hgrows.storage]
      rfl
    refine { consec := hout.consec, last := hout.last, start_ge := ?_, start_le := ?_,
             unstable_ne := hgrows.unstable_ne hout.unstable_ne, commit_le := ?_,
             delivered := ?_ }
    · exact hgrows.offset_le.trans hout.start_ge
    · rw [hgrows.storage]
      exact hout.start_le
    · exact hsave ▸ hout.commit_le
    · exact hsave ▸ hout.delivered

/-- A node reacts to a message. -/
lemma react {m : Message} {r : Raft} {rd : Ready} (hm : m.WF)
    (hrd : n.advanceChan = true → rd = n.rd) (ha : Raft.Actions m n.raft r) :
    WF { n with rd := rd, raft := r } :=
  h.grow (ha.logWF h.raft hm).1 (ha.logWF h.raft hm).2 hrd

/-- The next `Ready` can always be computed. -/
lemma newReady_eq : newReady n.raft n.prevSoft n.prevHard = .ok {
    softState := if n.raft.softState ≠ n.prevSoft then some n.raft.softState else none
    hardState := if n.raft.hardState ≠ n.prevHard then n.raft.hardState else emptyHardState
    readStates := n.raft.readStates
    entries := n.raft.raftLog.unstable.entries
    committedEntries := (n.raft.raftLog.abs.drop n.raft.raftLog.applyIndex).take
      (n.raft.raftLog.commitIndex - n.raft.raftLog.applyIndex)
    message := n.raft.msgs } := by
  unfold newReady
  rw [h.raft.log.nextEntries_eq]
  rfl

/-- The hard state of a `Ready` is that of the node. -/
lemma takeReady_prevHard {rd : Ready}
    (hrd : newReady n.raft n.prevSoft n.prevHard = .ok rd) :
    { n with rd := rd }.takeReady.prevHard = n.raft.hardState := by
  have hne : isEmptyHardState n.raft.hardState = false := by
    rw [isEmptyHardState, decide_eq_false_iff_not]
    intro heq
    have h0 : n.raft.term = 0 := congrArg HardState.term heq
    have := h.raft.term_pos
    omega
  rw [h.newReady_eq] at hrd
  cases hrd
  change (if _ then _ else _) = _
  by_cases heq : n.raft.hardState ≠ n.prevHard
  · rw [if_pos heq, hne]
    rfl
  · rw [not_not.1 heq]
    simp [isEmptyHardState]

/-- A `Ready` with entries holds the end of the log: what `Advance` will save is the log at
this moment. -/
lemma takeReady_readyLog {rd : Ready} (hidle : n.advanceChan = false)
    (hrd : newReady n.raft n.prevSoft n.prevHard = .ok rd)
    (hout : { n with rd := rd }.takeReady.hasPrevLastUnstableI = true) :
    ∃ e, n.raft.raftLog.unstable.entries.getLast? = some e ∧
      { n with rd := rd }.takeReady.prevLastUnstableI = e.index ∧
      { n with rd := rd }.takeReady.prevLastUnstableT = e.term ∧
      { n with rd := rd }.takeReady.readyStart = n.raft.raftLog.unstable.offset ∧
      { n with rd := rd }.takeReady.readyLog = n.raft.raftLog.abs := by
  obtain ⟨-, hhas⟩ := h.idle hidle
  rw [h.newReady_eq] at hrd
  cases hrd
  set n' := Node.takeReady _ with hn'
  have hsome : (n.raft.raftLog.unstable.entries.getLast?).isSome = true := by
    have : (n.hasPrevLastUnstableI || (n.raft.raftLog.unstable.entries.getLast?).isSome) =
        true := hout
    rwa [hhas] at this
  obtain ⟨e, he⟩ := Option.isSome_iff_exists.1 hsome
  have hI : n'.prevLastUnstableI = e.index := by
    change ((n.raft.raftLog.unstable.entries.getLast?).map Entry.index).getD _ = _
    rw [he]
    rfl
  have hT : n'.prevLastUnstableT = e.term := by
    change ((n.raft.raftLog.unstable.entries.getLast?).map Entry.term).getD _ = _
    rw [he]
    rfl
  have hidx := h.raft.log.unstable.getLast? he
  have hstart : n'.readyStart = n.raft.raftLog.unstable.offset := by
    unfold readyStart
    rw [hI]
    change e.index + 1 - n.raft.raftLog.unstable.entries.length = _
    omega
  refine ⟨e, he, hI, hT, hstart, ?_⟩
  unfold readyLog
  rw [hstart]
  rfl

/-- A node hands out a `Ready`. -/
lemma takeReady {rd : Ready} (hidle : n.advanceChan = false)
    (hrd : newReady n.raft n.prevSoft n.prevHard = .ok rd) :
    WF { n with rd := rd }.takeReady := by
  have hhard := h.takeReady_prevHard hrd
  have hcommit : { n with rd := rd }.takeReady.prevHard.commitIndex =
      n.raft.raftLog.commitIndex := by
    rw [hhard]
    rfl
  obtain ⟨hprev, hhas⟩ := h.idle hidle
  have hap := h.raft.log.apply_le
  have hready := hrd
  rw [h.newReady_eq] at hrd
  cases hrd
  set n' := Node.takeReady _ with hn'
  have hdel : n'.delivered = n.raft.raftLog.abs.take n.raft.raftLog.commitIndex := by
    have hsplit : n'.delivered = n.delivered ++ (n.raft.raftLog.abs.drop
        n.raft.raftLog.applyIndex).take (n.raft.raftLog.commitIndex -
          n.raft.raftLog.applyIndex) := by
      unfold Node.delivered
      change ((n.handed ++ [_]).map Ready.committedEntries).flatten = _
      simp
    rw [hsplit, h.delivered, hprev, ← take_add, Nat.add_sub_cancel' hap]
  refine { raft := ⟨h.raft.log, h.raft.term_pos, by simp [hn', Node.takeReady]⟩,
           delivered := hdel.trans (by rw [hcommit]; rfl),
           apply_le := ?_, commit_le := hcommit.le, idle := fun hf => ?_,
           out_term := fun _ => by rw [hhard]; exact h.raft.term_pos, saved := h.saved,
           unsaved := fun _ hnone => ?_, outstanding := fun hout => ?_ }
  · rw [hcommit]
    exact hap
  · cases hf
  · -- nothing is unstable, so the whole log is stored
    have hnil : n.raft.raftLog.unstable.entries = [] := by
      have : (n.hasPrevLastUnstableI || (n.raft.raftLog.unstable.entries.getLast?).isSome) =
          false := hnone
      rw [hhas] at this
      simpa using this
    have hoff := h.raft.log.offset_eq hnil
    have hlen := h.raft.log.length_abs
    have hcl := h.raft.log.commit_le
    rw [hnil, length_nil] at hlen
    rw [hcommit]
    change n.raft.raftLog.commitIndex < n.raft.raftLog.storage.entries.length
    omega
  · obtain ⟨e, he, hI, hT, hstart, hlog⟩ := takeReady_readyLog h hidle hready hout
    refine { consec := ?_, last := ⟨e, he, hI, hT⟩, start_ge := hstart.ge, start_le := ?_,
             unstable_ne := ?_, commit_le := ?_, delivered := ?_ }
    · rw [hstart]
      exact h.raft.log.unstable
    · rw [hstart]
      exact h.raft.log.offset_le
    · intro hnil
      change n.raft.raftLog.unstable.entries = [] at hnil
      rw [hnil] at he
      cases he
    · rw [hlog, hcommit]
      exact h.raft.log.commit_le
    · rw [hlog, hcommit, hdel]

/-- Saving the hard state and moving `applyIndex` does not panic. -/
lemma saveHardState_eq (hout : n.advanceChan = true) :
    ∃ st, n.saveHardState = .ok { n.raft.raftLog with
      storage := st, applyIndex := n.prevHard.commitIndex } ∧
    st.entries = n.raft.raftLog.storage.entries ∧ st.hardState = n.prevHard := by
  have hap := h.apply_le
  have hcl := h.commit_le
  have hne : isEmptyHardState n.prevHard = false := by
    rw [isEmptyHardState, decide_eq_false_iff_not]
    intro heq
    have h0 : n.prevHard.term = 0 := congrArg HardState.term heq
    have := h.out_term hout
    omega
  refine ⟨n.raft.raftLog.storage.setHardState n.prevHard, ?_, rfl, rfl⟩
  unfold saveHardState
  rw [hne]
  by_cases h0 : n.prevHard.commitIndex = 0
  · have : n.raft.raftLog.applyIndex = n.prevHard.commitIndex := by omega
    rw [if_neg (not_not.2 h0), ← this]
    rfl
  · rw [if_pos h0]
    change RaftLog.appliedTo { n.raft.raftLog with
      storage := n.raft.raftLog.storage.setHardState n.prevHard } _ = _
    unfold RaftLog.appliedTo
    dsimp only
    rw [if_neg h0, if_neg (by omega)]

/-- An `Advance` that saves the entries of a `Ready`. -/
lemma takeAdvance_saves (hprev : n.hasPrevLastUnstableI = true) :
    ∃ st e, st.entries = n.raft.raftLog.storage.entries.take n.readyStart ++ n.rd.entries ∧
      st.hardState = n.prevHard ∧ n.rd.entries.getLast? = some e ∧
      n.prevLastUnstableI = e.index ∧ n.prevLastUnstableT = e.term ∧
      n.takeAdvance = .ok { n with
        raft := { n.raft with raftLog := n.savedLog st e }
        hasPrevLastUnstableI := false
        advanceChan := false } := by
  obtain ⟨st, hsave, hst, hhard⟩ := h.saveHardState_eq (h.advanceChan_of_prev hprev)
  have hwf := h.raft.log.setStorage hst h.commit_le
  have hout := h.outstanding hprev
  obtain ⟨e, he, hI, hT⟩ := hout.last
  have hne : n.rd.entries ≠ [] := by
    intro hnil
    rw [hnil] at he
    cases he
  obtain ⟨st', hst', hhard', hentries⟩ := hwf.storage_append_eq hne hout.consec
    (hst ▸ hout.start_le)
  refine ⟨st', e, by rw [hentries, hst], hhard'.trans hhard, he, hI, hT, ?_⟩
  unfold takeAdvance
  rw [hsave]
  change (n.saveEntries _ >>= _) = _
  unfold saveEntries
  rw [if_pos hprev]
  rw [hst', hI, hT]
  rfl

/-- **An `Advance` does not panic.** -/
lemma takeAdvance_eq (hchan : n.advanceChan = true) :
    ∃ l', Advanced n l' ∧ n.takeAdvance = .ok { n with
      raft := { n.raft with raftLog := l' }
      hasPrevLastUnstableI := false
      advanceChan := false } := by
  by_cases hprev : n.hasPrevLastUnstableI = true
  · obtain ⟨st, e, hst, hhard, he, hI, hT, heq⟩ := h.takeAdvance_saves hprev
    have hout := h.outstanding hprev
    have hpos := h.raft.log.offset_pos
    have hstart := hout.start_ge
    have hwf := h.raft.log.setStorage (a := n.prevHard.commitIndex) rfl h.commit_le
    have habs := RaftLog.WF.abs_setStorage (l := n.raft.raftLog) rfl n.prevHard.commitIndex
    obtain ⟨hwf', hcases⟩ := hwf.saved_stableTo hout.consec hout.start_ge hout.start_le
      hout.unstable_ne hst he
    refine ⟨_, ⟨hwf', rfl, rfl, hhard, ?_, ?_, ?_⟩, heq⟩
    · have hlen := hout.commit_le
      unfold readyLog at hlen
      rw [length_append, length_take] at hlen
      have hle := hout.start_le
      change n.prevHard.commitIndex < st.entries.length
      rw [hst, length_append, length_take]
      omega
    · change st.entries[0]? = _
      rw [hst, getElem?_append_left, getElem?_take_of_lt (by omega)]
      have := length_pos_iff.2 n.raft.raftLog.storage.entries_ne
      rw [length_take]
      omega
    · rcases hcases with heq | ⟨R, hR, hlen, hterm, heq⟩
      · exact .inl (heq.trans habs)
      · right
        have hRlog : R = n.readyLog := hR
        rw [hRlog] at hlen hterm
        rw [hRlog] at heq
        exact ⟨hprev, hlen, hterm.trans hT.symm, heq⟩
  · obtain ⟨st, hsave, hst, hhard⟩ := h.saveHardState_eq hchan
    rw [Bool.not_eq_true] at hprev
    refine ⟨_, ⟨h.raft.log.setStorage hst h.commit_le, rfl, rfl, hhard, ?_, ?_,
      .inl (RaftLog.WF.abs_setStorage hst n.prevHard.commitIndex)⟩, ?_⟩
    · rw [hst]
      exact h.unsaved hchan hprev
    · rw [hst]
    · unfold takeAdvance
      rw [hsave]
      unfold saveEntries
      rw [hprev]
      rfl

/-- A node takes an `Advance`. -/
lemma advance {n' : Node} (hchan : n.advanceChan = true) (ha : n.takeAdvance = .ok n') : n'.WF := by
  obtain ⟨l', hl', heq⟩ := h.takeAdvance_eq hchan
  rw [heq] at ha
  cases ha
  have hcl := h.commit_le
  refine { raft := ⟨hl'.wf, h.raft.term_pos, h.raft.msgs⟩, delivered := ?_,
           apply_le := hl'.applyIndex.le, commit_le := hcl.trans hl'.commitIndex.ge,
           idle := fun _ => ⟨hl'.applyIndex.symm, rfl⟩, out_term := fun hf => (nomatch hf),
           saved := by rw [hl'.hardState]; exact hl'.stored,
           unsaved := fun hf => (nomatch hf), outstanding := fun hout => (nomatch hout) }
  change n.delivered = l'.abs.take n.prevHard.commitIndex
  rcases hl'.abs with habs | ⟨hprev, hlen, -, habs⟩
  · rw [habs]
    exact h.delivered
  · have hout := h.outstanding hprev
    rw [habs, take_append_of_le_length hout.commit_le, hout.delivered]

end WF

/-- A start succeeds only with `Applied = 0`, since `appliedTo` runs before the commit index
is restored, and it takes the whole log for committed. -/
lemma started_log {conf : Config} {peers : List ℕ} {n : Node} (h : Started conf peers n)
    (hst : Consec 0 conf.storage.entries) : conf.applied = 0 ∧
      n.raft.raftLog = { RaftLog.new conf.storage with
        applyIndex := 0, commitIndex := conf.storage.lastIndex } := by
  obtain ⟨k, hk, hlog⟩ := h.raftLog
  have hfirst : conf.storage.firstIndex - 1 = 0 := by
    rw [MemoryStorage.firstIndex, MemoryStorage.offset_eq_zero hst]
  unfold RaftLog.appliedTo RaftLog.new at hk
  dsimp only at hk
  rw [hfirst] at hk
  split at hk
  · rename_i h0
    cases hk
    exact ⟨h0, hlog⟩
  · rw [if_pos (by omega)] at hk
    cases hk

/-- A node that was started on a storage whose entries are numbered from the dummy on. -/
lemma WF.of_started {conf : Config} {peers : List ℕ} {n : Node} (h : Started conf peers n)
    (hst : Consec 0 conf.storage.entries)
    (hsaved : conf.storage.hardState.commitIndex < conf.storage.entries.length) : n.WF := by
  obtain ⟨-, hlog⟩ := started_log h hst
  have hlast := MemoryStorage.lastIndex_add_one hst
  have hwf : n.raft.raftLog.WF := by
    rw [hlog]
    refine { stored := hst, offset_pos := Nat.succ_pos _, offset_le := hlast.le,
             unstable := Consec.nil _, offset_eq := fun _ => hlast, apply_le := Nat.zero_le _,
             commit_le := ?_ }
    change conf.storage.lastIndex ≤ (conf.storage.entries.tail.take _ ++ []).length
    rw [append_nil, length_take, length_tail]
    change _ ≤ min (conf.storage.lastIndex + 1 - 1) _
    omega
  have happly : n.raft.raftLog.applyIndex = 0 := by rw [hlog]
  have hprev : n.prevHard.commitIndex = 0 := by rw [h.prevHard]; rfl
  have hstorage : n.raft.raftLog.storage = conf.storage := by rw [hlog]; rfl
  refine { raft := ⟨hwf, h.term_pos, by simp [h.msgs]⟩, delivered := ?_,
           apply_le := by omega, commit_le := by omega,
           idle := fun _ => ⟨by omega, h.hasPrevLastUnstableI⟩,
           out_term := fun hout => ?_, saved := by rw [hstorage]; exact hsaved,
           unsaved := fun hout => ?_, outstanding := fun hout => ?_ }
  · rw [hprev]
    simp [Node.delivered, h.handed]
  · simp [h.advanceChan] at hout
  · simp [h.advanceChan] at hout
  · simp [h.hasPrevLastUnstableI] at hout

end Node

/-! ## Runs -/

/-- All nodes and all messages are well formed. -/
structure Cluster.WF (s : Cluster) : Prop where
  nodes : ∀ i n, s.nodes.lookup i = some n → n.WF
  net : ∀ m ∈ s.net, m.WF

namespace ClusterConfig

variable {c : ClusterConfig} {s s' : Cluster} {ev : Event}

lemma wf_of_given (h : s.WF) {i : ℕ} {m : Message} (hm : m.Given s.net i) : m.WF := by
  rcases hm with hlocal | ⟨hm, -⟩
  · exact ⟨fun ht => by simp [ht, MessageType.isLocal] at hlocal,
      fun ht => by simp [ht, MessageType.isLocal] at hlocal⟩
  · exact h.net m hm

lemma Change.wf (hc : c.Change s ev s') (h : s.WF) : s'.WF := by
  refine ⟨?_, hc.forall_net h.net fun i n hn => (h.nodes i n hn).raft.msgs⟩
  cases hc with
  | skip => exact h.nodes
  | idle i n rd hn hrd =>
    have hnode := h.nodes i n hn
    exact Cluster.forall_insert h.nodes (hnode.grow hnode.raft (RaftLog.Grows.refl _) hrd)
  | react i n m rd r hn hrd hm ha =>
    exact Cluster.forall_insert h.nodes
      ((h.nodes i n hn).react (wf_of_given h (given_of_event hm)) hrd ha)
  | ready i n rd hn hidle hrd =>
    exact Cluster.forall_insert h.nodes ((h.nodes i n hn).takeReady hidle hrd)
  | advance i n n' hn hout ha =>
    exact Cluster.forall_insert h.nodes ((h.nodes i n hn).advance hout ha)
  | conf i index cc n rd _ hn hrd =>
    have hnode := h.nodes i n hn
    have hf := n.raft.applyConfChange_frame cc
    have hwf : (n.raft.applyConfChange cc).LogWF :=
      ⟨hf.raftLog ▸ hnode.raft.log, hf.term ▸ hnode.raft.term_pos, hf.msgs ▸ hnode.raft.msgs⟩
    exact Cluster.forall_insert h.nodes (hnode.grow hwf (hf.raftLog ▸ .refl _) hrd)
  | restart i applied rand n n' _ hn _ hst =>
    have hnode := h.nodes i n hn
    exact Cluster.forall_insert h.nodes (.of_started hst hnode.raft.log.stored hnode.saved)

lemma consec_fresh (c : ClusterConfig) (i : ℕ) :
    Consec 0 (c.config i MemoryStorage.new 0).storage.entries := by
  intro k e he
  rcases k with - | k
  · cases he
    rfl
  · simp [ClusterConfig.config, MemoryStorage.new] at he

lemma Begun.wf (h : c.Begun s) : s.WF where
  nodes i n hn := .of_started (h.nodes i n hn).2 (c.consec_fresh i) Nat.zero_lt_one
  net := by simp [h.net]

/-- **In every run all nodes and messages are well formed**, whatever is restarted and
whichever membership changes are applied. -/
theorem exec_wf (c : ClusterConfig) (evs : List Event) :
    Ensures (c.exec evs) fun s => s.Sane ∧ s.WF :=
  exec_invariant (fun _ h => h.wf) fun _ _ _ _ _ hc h => hc.wf h

/-- A node that is not restarted keeps what it has handed out. -/
lemma Change.handed (hc : c.Change s ev s') {i : ℕ}
    (hev : ∀ applied rand, ev ≠ .restart i applied rand) {n : Node}
    (hn : s.nodes.lookup i = some n) :
    ∃ n', s'.nodes.lookup i = some n' ∧ n.handed <+: n'.handed := by
  have hinsert : ∀ {j : ℕ} {n₁ n₂ : Node}, s.nodes.lookup j = some n₁ →
      (j = i → n₁.handed <+: n₂.handed) →
      ∃ n', (s.nodes.insert j n₂).lookup i = some n' ∧ n.handed <+: n'.handed := by
    intro j n₁ n₂ hj hpre
    rcases eq_or_ne i j with rfl | hne
    · rw [hn] at hj
      cases hj
      exact ⟨n₂, AList.lookup_insert _, hpre rfl⟩
    · exact ⟨n, by rw [AList.lookup_insert_ne hne, hn], prefix_rfl⟩
  cases hc with
  | skip => exact ⟨n, hn, prefix_rfl⟩
  | idle _ _ _ hj | react _ _ _ _ _ hj | conf _ _ _ _ _ _ hj =>
    exact hinsert hj fun _ => prefix_rfl
  | ready j n₁ rd hj => exact hinsert hj fun _ => prefix_append _ _
  | advance j n₁ n₂ hj _ ha =>
    refine hinsert hj fun _ => ?_
    obtain ⟨l₁, -, h₁⟩ := bind_eq_ok.1 ha
    obtain ⟨l₂, -, h₂⟩ := bind_eq_ok.1 h₁
    cases h₂
    exact prefix_rfl
  | restart j applied rand n₁ n₂ h hj =>
    refine hinsert hj fun hji => ?_
    rw [hji] at h
    exact absurd h (hev applied rand)

/-- What a node has handed out during a run in which it is not restarted. -/
lemma run_handed {evs : List Event} {i : ℕ}
    (hev : ∀ ev ∈ evs, ∀ applied rand, ev ≠ .restart i applied rand) {n : Node}
    (hs : s.Sane) (hn : s.nodes.lookup i = some n) :
    Ensures (c.run s evs) fun s' => ∃ n', s'.nodes.lookup i = some n' ∧
      n.handed <+: n'.handed := by
  refine (run_invariant (P := fun s' => ∃ n', s'.nodes.lookup i = some n' ∧
    n.handed <+: n'.handed) hs ⟨n, hn, prefix_rfl⟩ ?_).mono fun s' hs' => hs'.2
  rintro s₁ ev s₂ hmem - hc ⟨n₁, hn₁, hpre₁⟩
  obtain ⟨n₂, hn₂, hpre₂⟩ := hc.handed (hev ev hmem) hn₁
  exact ⟨n₂, hn₂, hpre₁.trans hpre₂⟩

end ClusterConfig

lemma Node.delivered_isPrefix {n n' : Node} (h : n.handed <+: n'.handed) :
    n.delivered <+: n'.delivered := by
  obtain ⟨rest, heq⟩ := h
  unfold delivered
  rw [← heq, map_append, flatten_append]
  exact prefix_append _ _

/-- The delivered entries of a well formed node are the first ones of its log. -/
lemma Node.WF.delivered_eq {n : Node} (h : n.WF) :
    n.delivered.length ≤ n.raft.raftLog.commitIndex ∧
      n.delivered = n.raft.raftLog.abs.take n.delivered.length ∧ Consec 1 n.delivered := by
  have h1 := h.commit_le
  have h2 := h.raft.log.commit_le
  have hlen : n.delivered.length = n.prevHard.commitIndex := by
    rw [h.delivered, length_take]
    omega
  refine ⟨by omega, ?_, ?_⟩
  · rw [hlen]
    exact h.delivered
  · rw [h.delivered]
    exact h.raft.log.consec_abs.take _

/-- **Exactly-once delivery in order.** What a node has delivered are the entries of its log
with the indices `1` to `k`, for some `k` that is committed, and as long as the node runs
its log keeps these entries and what it delivers continues them.

**Proof sketch.** `ClusterConfig.exec_wf` gives the equation in both states. The values
handed out only grow, so the delivered entries of the first state are a prefix of those of
the second, which are a prefix of its log. -/
theorem delivered_exactly_once (c : ClusterConfig) (evs evs' : List Event) (i : ℕ)
    (hrestart : ∀ ev ∈ evs', ∀ applied rand, ev ≠ .restart i applied rand)
    (s s' : Cluster) (hs : c.exec evs = .ok s) (hs' : c.run s evs' = .ok s')
    (n n' : Node) (hn : s.nodes.lookup i = some n) (hn' : s'.nodes.lookup i = some n') :
    ∃ k ≤ n.raft.raftLog.commitIndex, n.delivered.length = k ∧
      n.delivered = n.raft.raftLog.abs.take k ∧
      (∀ j e, n.delivered[j]? = some e → e.index = j + 1) ∧
      n'.raft.raftLog.abs.take k = n.delivered ∧ n.delivered <+: n'.delivered := by
  obtain ⟨hsane, hwf⟩ := c.exec_wf evs s hs
  have hrun : Ensures (c.run s evs') fun s' => s'.Sane ∧ s'.WF :=
    ClusterConfig.run_invariant hsane hwf fun _ _ _ _ _ hc h => hc.wf h
  obtain ⟨-, hwf'⟩ := hrun s' hs'
  obtain ⟨n₁, hn₁, hpre⟩ := ClusterConfig.run_handed hrestart hsane hn s' hs'
  rw [hn'] at hn₁
  cases hn₁
  obtain ⟨hle, heq, hconsec⟩ := (hwf.nodes i n hn).delivered_eq
  have hdel := Node.delivered_isPrefix hpre
  refine ⟨n.delivered.length, hle, rfl, heq, fun j e he => ?_, ?_, hdel⟩
  · have := hconsec j e he
    omega
  · have hlog : n.delivered <+: n'.raft.raftLog.abs := by
      refine hdel.trans ?_
      rw [(hwf'.nodes i n' hn').delivered_eq.2.1]
      exact List.take_prefix _ _
    exact (prefix_iff_eq_take.1 hlog).symm

/-- Node `1` delivers its own entry, and then that of the next leader. -/
theorem delivered_exactly_once_two_leaders : ∃ s s' n n',
    FixedCluster.pair.exec commitFirst = .ok s ∧
    FixedCluster.pair.run s deliverSecond = .ok s' ∧
    s.nodes.lookup 1 = some n ∧ s'.nodes.lookup 1 = some n' ∧
    n.delivered.length = 1 ∧ n'.delivered.length = 2 ∧
    ∃ k ≤ n.raft.raftLog.commitIndex, n.delivered.length = k ∧
      n.delivered = n.raft.raftLog.abs.take k ∧
      (∀ j e, n.delivered[j]? = some e → e.index = j + 1) ∧
      n'.raft.raftLog.abs.take k = n.delivered ∧ n.delivered <+: n'.delivered := by
  refine ⟨_, _, _, _, rfl, rfl, rfl, rfl, rfl, rfl, ?_⟩
  exact delivered_exactly_once FixedCluster.pair.toClusterConfig commitFirst deliverSecond 1
    (by simp [deliverSecond, commitSecond]) _ _ (by rfl) (by rfl) _ _ (by rfl) (by rfl)

end Yukino.Replica
