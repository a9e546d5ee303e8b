import Yukino.Raft.Refinement

set_option autoImplicit false

/-!
# Runs of a cluster are runs of the replication protocol

The simulation of single actions is carried over to the events of a cluster with fixed
membership and without restarts. An `Advance` needs an argument of its own: it may put the
entries of an old `Ready` back into the log, but only where the log has an entry of the same
term, and there the two agree by log matching.

## Main definitions

* `Cluster.Refines` — all nodes and messages agree with the abstract state.
* `FixedCluster.Recorded` — the logs of all leaders of the history occurred in the run.

## Main results

* `FixedCluster.exec_refines` — every run has an abstract state.
* `FixedCluster.run_refines` — a run from a later state continues the history.
-/

namespace Yukino.Replica

open Consensus Outcome List

namespace Raft

variable {ids : Finset ℕ} {a : History} {i : ℕ} {r r' : Raft} {m : Message}

/-- A leader that has taken note of the message stays leader of its term. -/
lemma Action.leader_stays (ha : Action m r r') (hm : m.WF) (hl : r.state = .leader)
    (hset : Settled m r) : r'.state = .leader ∧ r'.term = r.term := by
  rcases ha.of_leader hm hl with ⟨-, hns⟩ | ⟨h1, h2, -⟩
  · exact absurd hset hns
  · exact ⟨h1, h2⟩

/-- **A reaction of a node is a sequence of abstract actions.** -/
theorem Actions.reaches (ha : Actions m r r') (h : r.Refines ids a i) (hs : Sound ids a)
    (hwf : r.LogWF) (hwf' : m.WF) (hm : m.OkFor ids a i) (hnone : noneID ∉ ids) :
    r'.Reaches ids m a i := by
  refine (ha.invariant (P := fun r' => r'.LogWF ∧ r'.Reaches ids m a i) ?_ ⟨hwf, h.reaches hs⟩).2
  rintro r₁ r₂ hlast ⟨hwf₁, b, hsteps, hs₁, hr₁, hlogs₁⟩
  refine ⟨(hlast.logWF hwf₁ hwf').1, ?_⟩
  obtain ⟨-, hext, -⟩ := hsteps.spec hs.inv
  obtain ⟨b', hsteps', hs₂, hr₂, hlogs₂⟩ :=
    hlast.reaches hr₁ hs₁ hwf₁ hwf' ⟨hm.ok.mono hs hext, hm.toID⟩ hnone
  refine ⟨b', hsteps.trans hsteps', hs₂, hr₂, fun t => ?_⟩
  rcases hlogs₂ t with ⟨hel, hllog⟩ | hlead
  · rcases hlogs₁ t with ⟨hel', hllog'⟩ | ⟨hl, ht, hset⟩
    · exact .inl ⟨hel.trans hel', hllog.trans hllog'⟩
    · obtain ⟨hl', ht'⟩ := hlast.leader_stays hwf' hl hset
      exact .inr ⟨hl', ht'.trans ht, hlast.settled hset⟩
  · exact .inr hlead

end Raft

/-! ## Nodes -/

namespace Node

/-- The node agrees with the abstract state, and the entries of an outstanding `Ready` were
its log. -/
structure Refines (ids : Finset ℕ) (a : History) (i : ℕ) (n : Node) : Prop where
  raft : n.raft.Refines ids a i
  ready : n.hasPrevLastUnstableI = true → LogOk a n.readyLog

namespace Refines

variable {ids : Finset ℕ} {a b : History} {i : ℕ} {n : Node}

/-- Whatever the other nodes do. -/
lemma other (h : n.Refines ids a i) (hs : Sound ids a) (hab : Extends a b)
    (hsame : SameNode a b i) : n.Refines ids b i :=
  ⟨h.raft.other hs hab hsame, fun hprev => (h.ready hprev).mono hab⟩

/-- A node whose log the storage keeps as it is reacts to a message. -/
lemma react (h : n.Refines ids a i) (hwf : n.WF) (hab : Extends a b) {r : Raft} {rd : Ready}
    (hr : r.Refines ids b i) (hstorage : r.raftLog.storage = n.raft.raftLog.storage)
    (hrd : n.advanceChan → rd = n.rd) :
    Refines ids b i { n with rd := rd, raft := r } := by
  refine ⟨hr, fun hprev => ?_⟩
  cases hrd (hwf.advanceChan_of_prev hprev)
  have hready : readyLog { n with raft := r } = n.readyLog := by
    unfold readyLog readyStart
    rw [hstorage]
  rw [hready]
  exact (h.ready hprev).mono hab

variable (h : n.Refines ids a i) (hs : Sound ids a) (hwf : n.WF)
include h hs hwf

lemma takeReady {rd : Ready}
    (hidle : n.advanceChan = false) (hrd : newReady n.raft n.prevSoft n.prevHard = .ok rd) :
    Refines ids a i { n with rd := rd }.takeReady := by
  refine ⟨h.raft.congr rfl rfl rfl rfl rfl rfl rfl (by simp [Node.takeReady]), fun hout => ?_⟩
  obtain ⟨-, -, -, -, -, hlog⟩ := hwf.takeReady_readyLog hidle hrd hout
  rw [hlog]
  exact h.raft.logOk hs

/-- **An `Advance` does not change the log.**

**Proof sketch.** The entries that are put back end with the one that `stableTo` has found
in the log with the same term. By log matching they are the beginning of the log. -/
lemma advanced_abs {l' : RaftLog} (hl' : n.Advanced l') : l'.abs = n.raft.raftLog.abs := by
  rcases hl'.abs with habs | ⟨hprev, hlen, hterm, habs⟩
  · exact habs
  · obtain ⟨e, he, -, hT⟩ := (hwf.outstanding hprev).last
    have hne : n.rd.entries ≠ [] := by
      intro hnil
      rw [hnil] at he
      cases he
    have hpos : 0 < n.readyLog.length := by
      unfold readyLog
      rw [length_append]
      have := length_pos_iff.2 hne
      omega
    have hlast : termAt n.readyLog n.readyLog.length = n.prevLastUnstableT := by
      have hget : n.readyLog.getLast? = some e := by
        unfold readyLog
        rw [getLast?_append_of_ne_nil _ hne, he]
      rw [getLast?_eq_getElem?] at hget
      rw [termAt_pos hpos, hget, hT]
      rfl
    have htake := (h.raft.logOk hs).take_eq_of_termAt_eq (h.ready hprev) hpos hlen le_rfl
      (hterm.trans hlast.symm)
    rw [take_length] at htake
    rw [habs, ← htake, length_take_of_le hlen, take_append_drop]

lemma takeAdvance {n' : Node}
    (hchan : n.advanceChan = true) (ha : n.takeAdvance = .ok n') : n'.Refines ids a i := by
  obtain ⟨l', hl', heq⟩ := hwf.takeAdvance_eq hchan
  rw [heq] at ha
  cases ha
  have habs := h.advanced_abs hs hwf hl'
  refine ⟨?_, fun hf => (nomatch hf)⟩
  exact {
    self := h.raft.self
    id := h.raft.id
    mem_prs := h.raft.mem_prs
    term := h.raft.term
    voted := h.raft.voted
    log := h.raft.log.trans habs.symm
    commit := h.raft.commit.trans hl'.commitIndex.symm
    dummy := fun e he => h.raft.dummy e (hl'.dummy ▸ he)
    leader := h.raft.leader
    candidate := by rw [habs]; exact h.raft.candidate
    progress := by rw [habs]; exact h.raft.progress
    own := by rw [habs]; exact h.raft.own
    msgs := h.raft.msgs }

end Refines

end Node

/-! ## Clusters -/

/-- All nodes and all messages agree with the abstract state. -/
structure Cluster.Refines (ids : Finset ℕ) (a : History) (s : Cluster) : Prop where
  sound : Sound ids a
  wf : s.WF
  nodes : ∀ i n, s.nodes.lookup i = some n → n.Refines ids a i
  net : ∀ m ∈ s.net, m.Ok ids a

namespace Cluster.Refines

variable {ids : Finset ℕ} {a b : History} {s : Cluster}

/-- What node `i` reacts to says the truth. -/
lemma okFor (h : s.Refines ids a) {i : ℕ} {m : Message} (hm : m.Given s.net i) :
    m.OkFor ids a i := by
  rcases hm with hlocal | ⟨hmem, hto⟩
  · exact ⟨Message.ok_of_isLocal hlocal, fun hf => by simp [hlocal] at hf⟩
  · exact ⟨h.net m hmem, fun _ => hto⟩

/-- Node `i` takes actions of the protocol. -/
lemma insert (h : s.Refines ids a) {i : ℕ} {n : Node}
    (hsteps : Steps (QuorumSystem.majority ids) i a b) (hs : Sound ids b)
    (hn : n.Refines ids b i) (hwf : ({ s with nodes := s.nodes.insert i n } : Cluster).WF) :
    ({ s with nodes := s.nodes.insert i n } : Cluster).Refines ids b := by
  obtain ⟨-, hext, hsame⟩ := hsteps.spec h.sound.inv
  refine ⟨hs, hwf, fun j n₁ hj => ?_, fun m hm => (h.net m hm).mono h.sound hext⟩
  rcases eq_or_ne j i with rfl | hne
  · rw [AList.lookup_insert] at hj
    cases hj
    exact hn
  · rw [AList.lookup_insert_ne hne] at hj
    exact (h.nodes j n₁ hj).other h.sound hext (hsame j hne)

/-- The log of a leader is the log of the leader of its term. -/
lemma leads (h : s.Refines ids a) {i t : ℕ} (hl : s.Leads i t) :
    a.elected t = some i ∧ ∃ n, s.nodes.lookup i = some n ∧ n.raft.state = .leader ∧
      n.raft.term = t ∧ n.raft.raftLog.abs = a.llog t := by
  obtain ⟨n, hn, hstate, rfl⟩ := hl
  have hr := (h.nodes i n hn).raft
  exact ⟨hr.leader.1 hstate, n, hn, hstate, rfl, hr.leader_log h.sound hstate⟩

end Cluster.Refines

/-- **An event is a sequence of abstract actions.** The logs of leaders have only changed in
terms that have a leader now. -/
lemma ClusterConfig.Change.refines {c : ClusterConfig} {s s' : Cluster} {ev : Event}
    {ids : Finset ℕ} {a : History} (hc : c.Change s ev s') (hev : ev.isFixed = true)
    (h : s.Refines ids a) (hnone : noneID ∉ ids) :
    ∃ b, Extends a b ∧ s'.Refines ids b ∧
      ∀ t, (b.elected t = a.elected t ∧ b.llog t = a.llog t) ∨ ∃ i, s'.Leads i t := by
  have hwf := hc.wf h.wf
  have hnet := hc.forall_net h.net fun i n hn => (h.nodes i n hn).raft.msgs
  have hstay : s'.Refines ids a → ∃ b, Extends a b ∧ s'.Refines ids b ∧
      ∀ t, (b.elected t = a.elected t ∧ b.llog t = a.llog t) ∨ ∃ i, s'.Leads i t :=
    fun hs' => ⟨a, Extends.refl a, hs', fun _ => .inl ⟨rfl, rfl⟩⟩
  cases hc with
  | skip => exact hstay h
  | idle i n rd hn hrd =>
    refine hstay (h.insert Relation.ReflTransGen.refl h.sound ?_ hwf)
    exact (h.nodes i n hn).react (h.wf.nodes i n hn) (Extends.refl a) (h.nodes i n hn).raft rfl hrd
  | react i n m rd r hn hrd hm ha =>
    have hnode := h.nodes i n hn
    have hnwf := h.wf.nodes i n hn
    have hmwf := wf_of_given h.wf (given_of_event hm)
    obtain ⟨b, hsteps, hs, hr, hlogs⟩ := ha.reaches hnode.raft h.sound hnwf.raft hmwf
      (h.okFor (given_of_event hm)) hnone
    obtain ⟨-, hext, -⟩ := hsteps.spec h.sound.inv
    refine ⟨b, hext, h.insert hsteps hs ?_ hwf, fun t => ?_⟩
    · exact hnode.react hnwf hext hr (ha.logWF hnwf.raft hmwf).2.storage hrd
    · refine (hlogs t).imp_right ?_
      rintro ⟨hl, ht, -⟩
      exact ⟨i, _, AList.lookup_insert _, hl, ht⟩
  | ready i n rd hn hidle hrd =>
    exact hstay ⟨h.sound, hwf, Cluster.forall_insert h.nodes
      ((h.nodes i n hn).takeReady h.sound (h.wf.nodes i n hn) hidle hrd), hnet⟩
  | advance i n n' hn hout ha =>
    refine hstay (h.insert Relation.ReflTransGen.refl h.sound ?_ hwf)
    exact (h.nodes i n hn).takeAdvance h.sound (h.wf.nodes i n hn) hout ha
  | conf _ _ _ _ _ h | restart _ _ _ _ _ h => simp [h, Event.isFixed] at hev

/-! ## Runs -/

/-- The abstract state before the first event. -/
def History.start : History where
  term _ := 1
  log _ := []
  commit _ := 0
  voted _ _ := none
  clog _ _ := []
  elected _ := none
  llog _ := []
  acked _ _ := 0
  lcommit _ := 0

lemma History.start_sound (ids : Finset ℕ) : Sound ids History.start where
  inv := Inv.initial ⟨fun _ => rfl, fun _ => rfl, fun _ _ => rfl, fun _ _ => rfl, fun _ => rfl,
    fun _ => rfl, fun _ _ => rfl, fun _ => rfl⟩
  elected_pos _ ht := absurd rfl ht
  consec _ := Consec.nil _

namespace FixedCluster

variable {c : FixedCluster} {s : Cluster}

/-- A node that was started on fresh storage. -/
lemma refines_of_started {i : ℕ} {n : Node} (hi : i ∈ c.ids)
    (h : Started (c.config i MemoryStorage.new 0) (c.peers i) n) :
    n.Refines c.nodeSet History.start i := by
  obtain ⟨-, hlog⟩ := Node.started_log h (c.consec_fresh i)
  have hterm : n.raft.term = 1 := h.term
  have hvote : n.raft.vote = noneID := h.vote
  refine ⟨?_, fun hprev => ?_⟩
  · exact {
      self := by rw [nodeSet, mem_toFinset]; exact hi
      id := h.id
      mem_prs := mem_prs_of_started hi h
      term := hterm.symm
      voted := by rw [if_pos hvote]; rfl
      log := by rw [hlog]; rfl
      commit := by rw [hlog]; rfl
      dummy := fun e he => by
        rw [hlog] at he
        cases he
        rfl
      leader := by simp [h.state, History.start]
      candidate := fun hf => by simp [h.state] at hf
      progress := fun hf => by simp [h.state] at hf
      own := fun hf => by simp [h.state] at hf
      msgs := by simp [h.msgs] }
  · rw [h.hasPrevLastUnstableI] at hprev
    cases hprev

lemma refines_begun (h : c.Begun s) : s.Refines c.nodeSet History.start where
  sound := History.start_sound _
  wf := h.wf
  nodes i n hn := refines_of_started (h.nodes i n hn).1 (h.nodes i n hn).2
  net m hm := by
    rw [h.net] at hm
    simp at hm

/-- The log of every leader of the history was the log of a node that led the term after some
part of the run. -/
def Recorded (c : FixedCluster) (evs : List Event) (a : History) : Prop :=
  ∀ t i, a.elected t = some i → ∃ evs₁ s₁ n, evs₁ <+: evs ∧ c.exec evs₁ = .ok s₁ ∧
    s₁.nodes.lookup i = some n ∧ n.raft.state = .leader ∧ n.raft.term = t ∧
    n.raft.raftLog.abs = a.llog t

/-- **Every run has an abstract state**, whose leaders' logs occurred in the run. A property
`Q` of the two that holds at the start and that every event keeps is carried along.

**Proof sketch.** Induction on the events, by `ClusterConfig.Change.refines`. A leader's log
that has changed by the last event is the log of a node that leads the term now. -/
theorem exec_refines_and (c : FixedCluster) (Q : History → Cluster → Prop)
    (hstart : ∀ s, c.Begun s → Q History.start s)
    (hstep : ∀ s ev s' a b, ev.isFixed = true → c.Change s ev s' → s.Refines c.nodeSet a →
      s'.Refines c.nodeSet b → Extends a b → Q a s → Q b s')
    (evs : List Event) (hfixed : ∀ ev ∈ evs, ev.isFixed = true) :
    Ensures (c.exec evs) fun s =>
      s.Sane ∧ ∃ a, s.Refines c.nodeSet a ∧ c.Recorded evs a ∧ Q a s := by
  obtain ⟨s₀, hbegun, hexec, -⟩ := c.exec_eq
  induction evs using reverseRecOn with
  | nil =>
    rw [hexec]
    refine .ok ⟨hbegun.sane, _, refines_begun hbegun, fun t i hel => ?_, hstart _ hbegun⟩
    cases hel
  | append_singleton evs ev ih =>
    intro s' hs'
    have hsplit : c.exec (evs ++ [ev]) = c.exec evs >>= fun s => c.step s ev := by
      rw [hexec, hexec]
      unfold ClusterConfig.run
      simp
    have hs'' := hs'
    rw [hsplit] at hs''
    obtain ⟨s, hs, hlast⟩ := bind_eq_ok.1 hs''
    obtain ⟨hsane, a, ha, hrec, hQ⟩ := ih (fun e he => hfixed e (by simp [he])) s hs
    have hc := ClusterConfig.step_change hsane s' hlast
    have hev := hfixed ev (by simp)
    obtain ⟨b, hext, hb, hlogs⟩ := hc.refines hev ha c.noneID_notMem_nodeSet
    refine ⟨hc.sane hsane, b, hb, fun t i hel => ?_, hstep s ev s' a b hev hc ha hb hext hQ⟩
    rcases hlogs t with ⟨hel', hllog⟩ | ⟨j, hl⟩
    · obtain ⟨evs₁, s₁, n, hpre, hs₁, hn, hl, ht, hlog⟩ := hrec t i (hel'.symm.trans hel)
      exact ⟨evs₁, s₁, n, hpre.trans (prefix_append _ _), hs₁, hn, hl, ht, hlog.trans hllog.symm⟩
    · obtain ⟨hel', n, hn, hstate, ht, hlog⟩ := hb.leads hl
      rw [hel] at hel'
      cases hel'
      exact ⟨_, s', n, prefix_rfl, hs', hn, hstate, ht, hlog⟩

theorem exec_refines (c : FixedCluster) (evs : List Event)
    (hfixed : ∀ ev ∈ evs, ev.isFixed = true) :
    Ensures (c.exec evs) fun s => s.Sane ∧ ∃ a, s.Refines c.nodeSet a ∧ c.Recorded evs a := by
  refine (c.exec_refines_and (fun _ _ => True) (fun _ _ => trivial)
    (fun _ _ _ _ _ _ _ _ _ _ _ => trivial) evs hfixed).mono ?_
  rintro s ⟨hsane, a, ha, hrec, -⟩
  exact ⟨hsane, a, ha, hrec⟩

/-- **A run from a later state continues the history.** -/
theorem run_refines {a : History} {evs : List Event} (hsane : s.Sane)
    (h : s.Refines c.nodeSet a) (hfixed : ∀ ev ∈ evs, ev.isFixed = true) :
    Ensures (c.run s evs) fun s' => ∃ b, Extends a b ∧ s'.Refines c.nodeSet b := by
  refine (ClusterConfig.run_invariant (P := fun s' => ∃ b, Extends a b ∧
    s'.Refines c.nodeSet b) hsane ⟨a, Extends.refl a, h⟩ ?_).mono fun s' hs' => hs'.2
  rintro s₁ ev s₂ hev - hc ⟨b, hab, hb⟩
  obtain ⟨b', hext, hb', -⟩ := hc.refines (hfixed ev hev) hb c.noneID_notMem_nodeSet
  exact ⟨b', hab.trans hext, hb'⟩

end FixedCluster

end Yukino.Replica
