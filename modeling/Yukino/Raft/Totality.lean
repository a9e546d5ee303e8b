import Yukino.Raft.Safety
import Yukino.Raft.ReadQueue

set_option autoImplicit false

/-!
# No panic is reachable

Every panic of the source is an error of the model: the explicit ones in `log.go`, `read.go`
and `raft.go`, a storage error, an index outside a slice, and a nil pointer. With fixed
membership and without restarts no run ends in one of them.

## Main definitions

* `Raft.Fit` — what is known of a node that reacts to a message.

## Main results

* `Raft.Fit.step`, `Raft.tick_succeeds` — a node always reacts.
* `no_panic` — every run of a cluster returns.

## Design

`Fit` collects the invariants that rule out a panic each: the representation of the log, the
queue of reads, and the agreement with the replication protocol. Reactions keep all of them,
so a function that is called in the middle of a reaction is called in a state that is still
`Fit`. For each call that may fail there is one lemma which says that it returns; that the
reactions then return is what `Raft.step_guarded` shows together with what they do.
-/

namespace Yukino.Replica

open Consensus Outcome AList Option

namespace Raft

/-- A node and a message it may have to react to. -/
structure Fit (ids : Finset ℕ) (m : Message) (r : Raft) : Prop where
  noneID_notMem : noneID ∉ ids
  log : r.LogWF
  reads : r.ReadWF
  msg : m.WF
  filled : m.Filled
  refines : ∃ a i, Sound ids a ∧ r.Refines ids a i ∧ m.OkFor ids a i

namespace Fit

variable {ids : Finset ℕ} {m : Message} {r r' : Raft}

section

variable (h : r.Fit ids m)
include h

lemma action (ha : Action m r r') : r'.Fit ids m := by
  obtain ⟨a, i, hs, hr, hm⟩ := h.refines
  obtain ⟨b, hsteps, hs', hr', -⟩ := ha.reaches hr hs h.log h.msg hm h.noneID_notMem
  obtain ⟨-, hext, -⟩ := hsteps.spec hs.inv
  exact {
    noneID_notMem := h.noneID_notMem
    log := (ha.logWF h.log h.msg).1
    reads := ha.readWF h.reads h.filled
    msg := h.msg
    filled := h.filled
    refines := ⟨b, i, hs', hr', hm.ok.mono hs hext, hm.toID⟩ }

lemma termsOk : r.raftLog.TermsOk := by
  obtain ⟨a, i, hs, hr, -⟩ := h.refines
  exact hr.termsOk hs

lemma self_mem : r.id ∈ r.prs := by
  obtain ⟨a, i, -, hr, -⟩ := h.refines
  rw [hr.mem_prs, hr.id]
  exact hr.self

/-! ## The log of a leader -/

lemma sendAppend (hl : r.state = .leader) {id : ℕ} (hid : id ∈ r.prs)
    (hne : id ≠ r.id) : Succeeds (r.sendAppend id) := by
  obtain ⟨a, i, -, hr, -⟩ := h.refines
  obtain ⟨pr, hpr⟩ := isSome_iff_exists.1 (lookup_isSome.2 hid)
  obtain ⟨-, hnext, -⟩ := hr.progress hl id pr (hr.id ▸ hne) hpr
  unfold Raft.sendAppend
  rw [hpr]
  dsimp only
  rw [h.log.log.entriesFrom_eq hnext]
  exact .ok _

lemma maybeCommit : Succeeds r.maybeCommit := by
  have hpos : 0 < r.prs.keys.length := List.length_pos_of_mem (mem_keys.1 h.self_mem)
  obtain ⟨x, hx, -⟩ := maybeCommit_returns h.log.log h.termsOk h.log.term_pos hpos
  exact Succeeds.of_eq hx

lemma extendLog {xs : List Entry} (hne : xs ≠ []) :
    Succeeds ({ r with pendingConf := (filterConf r.pendingConf xs).2 }.extendLog
      (filterConf r.pendingConf xs).1) := by
  obtain ⟨pr, hpr⟩ := isSome_iff_exists.1 (lookup_isSome.2 h.self_mem)
  obtain ⟨u, heq, -⟩ := extendLog_eq (r := { r with
    pendingConf := (filterConf r.pendingConf xs).2 }) h.log.log (filterConf_ne hne) hpr
  exact Succeeds.of_eq heq

lemma slice : Succeeds
    (r.raftLog.slice (r.raftLog.applyIndex + 1) (r.raftLog.commitIndex + 1)) := by
  have hap := h.log.log.apply_le
  have hcl := h.log.log.commit_le
  rw [h.log.log.slice_eq (by omega) (by omega) (by omega)]
  exact .ok _

/-! ## Answers -/

lemma handleVote : Succeeds (r.handleVote m) := by
  unfold Raft.handleVote
  rw [h.log.log.isUpToDate_eq h.termsOk]
  change Succeeds (if _ then _ else _)
  split <;> split <;> exact .ok _

lemma handleAppendEntries (ht : m.type = .msgApp) (hcur : Current m r) :
    Succeeds (r.handleAppendEntries m) := by
  obtain ⟨a, i, hs, hr, hm⟩ := h.refines
  have hterm := Refines.term_eq_of_current hm.ok (by simp [ht, MessageType.isLocal]) hcur
  unfold Raft.handleAppendEntries
  rcases hr.maybeAppend_eq hs h.log hm.ok ht hterm with heq | ⟨u, heq, -⟩
  all_goals
    rw [heq]
    exact .ok _

lemma handleHeartbeat : Succeeds (r.handleHeartbeat m) := by
  unfold Raft.handleHeartbeat
  rw [h.log.log.lastIndex_eq, h.log.log.commitTo_eq (min_le_right _ _)]
  exact .ok _

end

lemma releaseRead {rs : ReadIndexStatus} (hne : rs.req.entries ≠ []) :
    Succeeds (r.releaseRead rs) := by
  obtain ⟨e, es, he⟩ := List.exists_cons_of_ne_nil hne
  unfold Raft.releaseRead
  dsimp only
  split
  · rw [he]
    exact .ok _
  · exact .ok _

lemma handleHeartbeatResp (h : r.Fit ids m) : Succeeds (r.handleHeartbeatResp m) := by
  have hack := h.reads.queue.recvAck m.context m.fromID
  unfold Raft.handleHeartbeatResp
  split
  · exact .ok _
  dsimp only
  split
  · exact .ok _
  refine Succeeds.bind hack.advance_succeeds (fun p hp => hp) ?_
  rintro ⟨ro, rss⟩ hadv
  obtain ⟨-, hrss⟩ := hack.advance hadv
  refine Succeeds.foldlM (I := fun _ => True) trivial (fun rs hrs s _ => ?_)
    fun _ _ _ _ _ _ => trivial
  obtain ⟨ctx, hctx, hlook⟩ := hrss rs hrs
  obtain ⟨rs', hrs', e, es, he, -⟩ := hack.pending ctx hctx
  rw [hlook] at hrs'
  cases hrs'
  exact releaseRead (by simp [he])

/-- The invariants rule out every panic in a reaction. -/
lemma secures : Secures m (Fit ids m) where
  action ha h := h.action ha
  entries_ne h := h.filled
  fromID_ne h ht := by
    obtain ⟨a, i, -, hr, hm⟩ := h.refines
    have := (hm.ok.appResp ht).1
    rwa [hm.toID (by simp [ht, MessageType.isLocal]), ← hr.id] at this
  sendAppend h hl hid hne := h.sendAppend hl hid hne
  maybeCommit := maybeCommit
  extendLog h hne := h.extendLog hne
  slice := slice
  lastTerm h := Succeeds.of_eq (h.log.log.lastTerm_eq h.termsOk)
  commitTerm h := by
    rw [h.log.log.term_eq h.termsOk]
    exact .ok _
  handleVote := handleVote
  handleAppendEntries := handleAppendEntries
  handleHeartbeat := handleHeartbeat
  handleHeartbeatResp := handleHeartbeatResp

/-- **A node reacts to every message.** -/
lemma step (h : r.Fit ids m) (hr : r.Sane) : Succeeds (r.step m) :=
  (step_guarded secures hr).succeeds h

end Fit

/-- **A node reacts to every tick.** -/
lemma tick_succeeds {ids : Finset ℕ} {r : Raft} (hr : r.Sane)
    (h : ∀ m : Message, (m.type = .msgHup ∨ m.type = .msgBeat) ∧ m.term = 0 → r.Fit ids m) :
    Succeeds r.tick := by
  obtain ⟨m, r₁, hm, h0, hr₁, hsane, heq | heq⟩ := tick_eq hr
  · exact Succeeds.of_eq heq
  · rw [heq]
    exact (Fit.secures.actions hr₁ (h m ⟨hm, h0⟩)).step hsane

end Raft

/-! ## Rounds of a node -/

namespace Node

variable {n : Node} {inp : Input}

lemma WF.prepare_succeeds (h : n.WF) : Succeeds n.prepare := by
  unfold prepare
  split
  · exact .ok _
  · rw [h.newReady_eq]
    exact .ok _

lemma WF.takeAdvance_succeeds (h : n.WF) (hout : n.advanceChan = true) :
    Succeeds n.takeAdvance := by
  obtain ⟨l', -, heq⟩ := h.takeAdvance_eq hout
  exact Succeeds.of_eq heq

/-- **A node takes every input.** -/
lemma handle_succeeds (ids : Finset ℕ) (h : n.WF) (hn : n.raft.Sane)
    (hinp : ∀ m, inp.Carries n.raft.id m → n.raft.Fit ids m) : Succeeds (n.handle inp) := by
  refine h.prepare_succeeds.bind (prepare_ensures n) ?_
  rintro n₁ ⟨rd, rfl, hout, -⟩
  have hbind : ∀ {x : Go Raft}, Succeeds x →
      Succeeds (x >>= fun raft => .ok { n with rd := rd, raft := raft }) :=
    fun hx => hx.bind (P := fun _ => True) (fun _ _ => trivial) fun _ _ => .ok _
  cases inp with
  | proc | recv => exact hbind ((hinp _ rfl).step hn)
  | conf cc => exact .ok _
  | tick => exact hbind (Raft.tick_succeeds hn hinp)
  | ready => exact .ok _
  | advance =>
    dsimp only
    split_ifs with hchan
    · rw [hout hchan]
      exact h.takeAdvance_succeeds hchan
    · exact .ok _

end Node

/-! ## Runs -/

/-- What a node of the cluster may have to react to. -/
lemma Cluster.Refines.fit {ids : Finset ℕ} {a : History} {s : Cluster} {ev : Event} {i : ℕ}
    {n : Node} {m : Message} (h : s.Refines ids a) (hreads : s.ReadWF) (hnone : noneID ∉ ids)
    (hn : s.nodes.lookup i = some n) (hm : ev.Gives s i m) :
    n.raft.Fit ids m where
  noneID_notMem := hnone
  log := (h.wf.nodes i n hn).raft
  reads := hreads.nodes i n hn
  msg := ClusterConfig.wf_of_given h.wf (given_of_event hm)
  filled := ClusterConfig.filled_of_event hreads hm
  refines := ⟨a, i, h.sound, (h.nodes i n hn).raft, h.okFor (given_of_event hm)⟩

/-- **Every event is taken.** -/
lemma ClusterConfig.step_succeeds {c : ClusterConfig} {ids : Finset ℕ} {a : History}
    {s : Cluster} {ev : Event} (h : s.Refines ids a) (hreads : s.ReadWF) (hsane : s.Sane)
    (hnone : noneID ∉ ids) (hev : ev.isFixed = true) : Succeeds (c.step s ev) := by
  rcases c.step_fixed s hev with heq | ⟨i, inp, heq, -, hinp⟩
  · exact Succeeds.of_eq heq
  rw [heq]
  unfold Cluster.input
  split
  · exact .ok _
  · rename_i n hn
    obtain ⟨hid, hn'⟩ := hsane i n hn
    have hhandle : Succeeds (n.handle inp) := by
      refine Node.handle_succeeds ids (h.wf.nodes i n hn) hn' fun m hm => ?_
      rw [hid] at hm
      exact h.fit hreads hnone hn (hinp m hm)
    exact hhandle.bind (P := fun _ => True) (fun _ _ => trivial) fun _ _ => .ok _

/-- **No panic is reachable**: with fixed membership and without restarts every run returns.

**Proof sketch.** Induction on the events. After any part of the run the state has an abstract
state (`ClusterConfig.Change.refines`) and consistent queues of reads, so by
`ClusterConfig.step_succeeds` the next event is taken. -/
theorem no_panic (c : FixedCluster) (evs : List Event)
    (hfixed : ∀ ev ∈ evs, ev.isFixed = true) : ∃ s, c.exec evs = .ok s := by
  have hnone := c.noneID_notMem_nodeSet
  obtain ⟨s₀, hbegun, hexec, -⟩ := c.exec_eq
  rw [hexec]
  refine Succeeds.foldlM (I := fun s => s.Sane ∧ s.ReadWF ∧ ∃ a, s.Refines c.nodeSet a)
    ⟨hbegun.sane, hbegun.readWF, _, FixedCluster.refines_begun hbegun⟩ ?_ ?_
  · rintro ev hev s ⟨hsane, hreads, a, ha⟩
    exact ClusterConfig.step_succeeds ha hreads hsane hnone (hfixed ev hev)
  · rintro ev hev s ⟨hsane, hreads, a, ha⟩ s' hs'
    have hc := ClusterConfig.step_change hsane s' hs'
    obtain ⟨b, -, hb, -⟩ := hc.refines (hfixed ev hev) ha hnone
    exact ⟨hc.sane hsane, hc.readWF hreads, b, hb⟩

/-- Two leaders commit an entry each, and the second one starts a read. -/
theorem no_panic_two_leaders : ∃ s, FixedCluster.pair.exec
    (commitFirst ++ commitSecond ++ [.readIndex 2 [97], .ready 2]) = .ok s :=
  no_panic _ _ (by decide)

end Yukino.Replica
