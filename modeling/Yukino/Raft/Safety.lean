import Yukino.Raft.Simulation

set_option autoImplicit false

/-!
# Safety of replication

What the simulation says about the nodes of a cluster with fixed membership and without
restarts, whatever the network does: logs match, leaders keep what was committed, and all
nodes commit and deliver the same entries.

## Main results

* `log_matching` — log matching, and where the entries of a `MsgApp` come from.
* `leader_completeness` — leader completeness.
* `state_machine_safety` — state machine safety.
-/

namespace Yukino.Replica

open Consensus Outcome List

/-- Logs with a common beginning have the same entries there. -/
lemma exists_getElem?_of_take_eq {l l' : List Entry} {k : ℕ} (hk : 1 ≤ k) (hlen : k ≤ l.length)
    (h : l.take k = l'.take k) : ∃ e, l[k - 1]? = some e ∧ l'[k - 1]? = some e := by
  have hget : l[k - 1]? = some l[k - 1] := getElem?_eq_getElem (by omega)
  refine ⟨l[k - 1], hget, ?_⟩
  rw [← getElem?_take_of_lt (show k - 1 < k by omega), ← h, getElem?_take_of_lt (by omega), hget]

namespace FixedCluster

variable {c : FixedCluster}

/-- The abstract states of two states of a run. -/
lemma refines_both {evs evs' : List Event} (hfixed : ∀ ev ∈ evs ++ evs', ev.isFixed = true)
    {s s' : Cluster} (hs : c.exec evs = .ok s) (hs' : c.run s evs' = .ok s') :
    ∃ a b, s.Refines c.nodeSet a ∧ s'.Refines c.nodeSet b ∧ Extends a b := by
  obtain ⟨hsane, a, ha, -⟩ := c.exec_refines evs (fun ev hev => hfixed ev (by simp [hev])) s hs
  obtain ⟨b, hext, hb⟩ := run_refines hsane ha (fun ev hev => hfixed ev (by simp [hev])) s' hs'
  exact ⟨a, b, ha, hb, hext⟩

end FixedCluster

/-! ## The theorems -/

/-- **Log matching.** Two logs that have entries of one term at one index are identical up to
there. The entries of a `MsgApp` are numbered from `LogIndex + 1` on, and together with
`LogIndex` and `LogTerm` they are a fragment of the log that the sender had at some point of
the run as leader of the message's term.

**Proof sketch.** Both logs are made of prefixes of leaders' logs, one for each term. A
`MsgApp` states that its entries are a fragment of the log of its term's leader, which is
recorded in the history, and what is recorded was the log of a node after some events. -/
theorem log_matching (c : FixedCluster) (evs : List Event)
    (hfixed : ∀ ev ∈ evs, ev.isFixed = true) (s : Cluster) (hs : c.exec evs = .ok s) :
    (∀ i j n n', s.nodes.lookup i = some n → s.nodes.lookup j = some n' →
      ∀ k e e', n.raft.raftLog.abs[k]? = some e → n'.raft.raftLog.abs[k]? = some e' →
        e.term = e'.term → n.raft.raftLog.abs.take (k + 1) = n'.raft.raftLog.abs.take (k + 1)) ∧
    ∀ m ∈ s.net, m.type = .msgApp →
      (∀ k e, m.entries[k]? = some e → e.index = m.logIndex + 1 + k) ∧
      ∃ evs₁ s₁ n, evs₁ <+: evs ∧ c.exec evs₁ = .ok s₁ ∧ s₁.nodes.lookup m.fromID = some n ∧
        n.raft.state = .leader ∧ n.raft.term = m.term ∧
        m.logIndex + m.entries.length ≤ n.raft.raftLog.abs.length ∧
        m.logTerm = termAt n.raft.raftLog.abs m.logIndex ∧
        m.entries = (n.raft.raftLog.abs.drop m.logIndex).take m.entries.length := by
  obtain ⟨-, a, ha, hrec⟩ := c.exec_refines evs hfixed s hs
  refine ⟨fun i j n n' hn hn' k e e' he he' hterm => ?_, fun m hm ht => ?_⟩
  · have hlen : k < n.raft.raftLog.abs.length := (List.getElem?_eq_some_iff.1 he).1
    have hlen' : k < n'.raft.raftLog.abs.length := (List.getElem?_eq_some_iff.1 he').1
    refine ((ha.nodes i n hn).raft.logOk ha.sound).take_eq_of_termAt_eq
      ((ha.nodes j n' hn').raft.logOk ha.sound) (Nat.succ_pos k) hlen hlen' ?_
    rw [termAt_pos (Nat.succ_pos k), termAt_pos (Nat.succ_pos k), Nat.succ_sub_one, he, he']
    exact hterm
  · refine ⟨(ha.wf.net m hm).entries ht, ?_⟩
    obtain ⟨hel, -, hlen, hlogTerm, hentries, -⟩ := (ha.net m hm).app ht
    obtain ⟨evs₁, s₁, n, hpre, hs₁, hn, hl, hterm, hlog⟩ := hrec m.term m.fromID hel
    rw [← hlog] at hlen hlogTerm hentries
    exact ⟨evs₁, s₁, n, hpre, hs₁, hn, hl, hterm, hlen, hlogTerm, hentries⟩

/-- In the run with two leaders, the `MsgApp` of node `2` carries the second entry of its
log. -/
theorem log_matching_two_leaders : ∃ s m,
    FixedCluster.pair.exec (commitFirst ++ commitSecond) = .ok s ∧
    m ∈ s.net ∧ m.type = .msgApp ∧ m.term = 3 ∧ m.logIndex = 1 ∧ m.entries.length = 1 ∧
    ∃ evs₁ s₁ n, evs₁ <+: commitFirst ++ commitSecond ∧
      FixedCluster.pair.exec evs₁ = .ok s₁ ∧
      s₁.nodes.lookup m.fromID = some n ∧ n.raft.state = .leader ∧ n.raft.term = m.term ∧
      m.logIndex + m.entries.length ≤ n.raft.raftLog.abs.length ∧
      m.logTerm = termAt n.raft.raftLog.abs m.logIndex ∧
      m.entries = (n.raft.raftLog.abs.drop m.logIndex).take m.entries.length := by
  obtain ⟨s, hs, hm⟩ : ∃ s,
      FixedCluster.pair.exec (commitFirst ++ commitSecond) = .ok s ∧
      ({ type := .msgApp, toID := 1, fromID := 2, term := 3, logTerm := 2, logIndex := 1,
         entries := [{ term := 3, index := 2 }] } : Message) ∈ s.net := ⟨_, rfl, by decide⟩
  exact ⟨s, _, hs, hm, rfl, rfl, rfl, rfl,
    ((log_matching _ (commitFirst ++ commitSecond) (by decide) s hs).2 _ hm rfl).2⟩

/-- **Leader completeness.** An entry that a leader, or any other node, has committed is in
the log of every node that leads a higher term at the same time or later. -/
theorem leader_completeness (c : FixedCluster) (evs evs' : List Event)
    (hfixed : ∀ ev ∈ evs ++ evs', ev.isFixed = true) (s s' : Cluster)
    (hs : c.exec evs = .ok s) (hs' : c.run s evs' = .ok s') (i j : ℕ) (n n' : Node)
    (hn : s.nodes.lookup i = some n) (hn' : s'.nodes.lookup j = some n')
    (hl : n'.raft.state = .leader) (hterm : n.raft.term < n'.raft.term) (k : ℕ) (hk : 1 ≤ k)
    (hcommit : k ≤ n.raft.raftLog.commitIndex) :
    ∃ e, n.raft.raftLog.abs[k - 1]? = some e ∧ n'.raft.raftLog.abs[k - 1]? = some e := by
  obtain ⟨a, b, ha, hb, hext⟩ := FixedCluster.refines_both hfixed hs hs'
  have hr := (ha.nodes i n hn).raft
  have hr' := (hb.nodes j n' hn').raft
  have hlen := (ha.wf.nodes i n hn).raft.log.commit_le
  have hpre := ha.sound.inv.leader_complete hb.sound.inv hext (i := i) (k := k)
    (by rw [hr.commit]; exact hcommit) (by rw [hr.term]; exact hterm)
    (by rw [hr'.leader.1 hl]; simp)
  rw [hr.log, ← hr'.leader_log hb.sound hl] at hpre
  exact exists_getElem?_of_take_eq hk (by omega) (take_eq_of_take_isPrefix hpre (by omega)).symm

/-- In the run with two leaders, node `2` has the entry that node `1` has committed. -/
theorem leader_completeness_two_leaders : ∃ s s' n n' e,
    FixedCluster.pair.exec commitFirst = .ok s ∧
    FixedCluster.pair.run s commitSecond = .ok s' ∧
    s.nodes.lookup 1 = some n ∧ s'.nodes.lookup 2 = some n' ∧ n.raft.state = .leader ∧
    n'.raft.state = .leader ∧ n.raft.term = 2 ∧ n'.raft.term = 3 ∧
    n.raft.raftLog.abs[0]? = some e ∧ n'.raft.raftLog.abs[0]? = some e := by
  obtain ⟨e, he, he'⟩ := leader_completeness FixedCluster.pair commitFirst
    commitSecond (by decide) _ _ rfl rfl 1 2 _ _ rfl rfl rfl (by decide) 1 le_rfl (by decide)
  exact ⟨_, _, _, _, e, rfl, rfl, rfl, rfl, rfl, rfl, rfl, rfl, he, he'⟩

/-- **State machine safety.** The entries that two nodes have committed are the same, and what
they have delivered is the same as far as both have delivered, even when the two nodes are
looked at at different times.

**Proof sketch.** The committed entries of a node are those of some leader that has committed
them, and two leaders agree on what either has committed. What a node has delivered is the
beginning of its committed entries. -/
theorem state_machine_safety (c : FixedCluster) (evs evs' : List Event)
    (hfixed : ∀ ev ∈ evs ++ evs', ev.isFixed = true) (s s' : Cluster)
    (hs : c.exec evs = .ok s) (hs' : c.run s evs' = .ok s') (i j : ℕ) (n n' : Node)
    (hn : s.nodes.lookup i = some n) (hn' : s'.nodes.lookup j = some n') :
    (∀ k, 1 ≤ k → k ≤ n.raft.raftLog.commitIndex → k ≤ n'.raft.raftLog.commitIndex →
      ∃ e, n.raft.raftLog.abs[k - 1]? = some e ∧ n'.raft.raftLog.abs[k - 1]? = some e) ∧
    (n.delivered <+: n'.delivered ∨ n'.delivered <+: n.delivered) := by
  obtain ⟨a, b, ha, hb, hext⟩ := FixedCluster.refines_both hfixed hs hs'
  have hr := (ha.nodes i n hn).raft
  have hr' := (hb.nodes j n' hn').raft
  have hwf := ha.wf.nodes i n hn
  have hwf' := hb.wf.nodes j n' hn'
  have hagree : ∀ k, k ≤ n.raft.raftLog.commitIndex → k ≤ n'.raft.raftLog.commitIndex →
      n.raft.raftLog.abs.take k = n'.raft.raftLog.abs.take k := by
    intro k hk hk'
    have := ha.sound.inv.take_eq_of_commit hb.sound.inv hext (i := i) (j := j) (k := k)
      (by rw [hr.commit]; exact hk) (by rw [hr'.commit]; exact hk')
    rwa [hr.log, hr'.log] at this
  refine ⟨fun k hk hki hkj => ?_, ?_⟩
  · exact exists_getElem?_of_take_eq hk (hki.trans hwf.raft.log.commit_le) (hagree k hki hkj)
  · have hle := hwf.commit_le
    have hle' := hwf'.commit_le
    rw [hwf.delivered, hwf'.delivered]
    rcases Nat.le_total n.prevHard.commitIndex n'.prevHard.commitIndex with h | h
    · left
      rw [hagree _ hle (h.trans hle')]
      exact take_prefix_take_left h
    · right
      rw [← hagree _ (h.trans hle) hle']
      exact take_prefix_take_left h

/-- In the run with two leaders, node `1` has committed one entry at first and node `2` has
committed two in the end, of which the first is the same. -/
theorem state_machine_safety_two_leaders : ∃ s s' n n',
    FixedCluster.pair.exec commitFirst = .ok s ∧
    FixedCluster.pair.run s commitSecond = .ok s' ∧
    s.nodes.lookup 1 = some n ∧ s'.nodes.lookup 2 = some n' ∧
    n.raft.raftLog.commitIndex = 1 ∧ n'.raft.raftLog.commitIndex = 2 ∧
    n.delivered.length = 1 ∧ n'.delivered.length = 2 ∧
    (∀ k, 1 ≤ k → k ≤ n.raft.raftLog.commitIndex → k ≤ n'.raft.raftLog.commitIndex →
      ∃ e, n.raft.raftLog.abs[k - 1]? = some e ∧ n'.raft.raftLog.abs[k - 1]? = some e) ∧
    (n.delivered <+: n'.delivered ∨ n'.delivered <+: n.delivered) := by
  refine ⟨_, _, _, _, rfl, rfl, rfl, rfl, rfl, rfl, rfl, rfl, ?_⟩
  exact state_machine_safety FixedCluster.pair commitFirst commitSecond
    (by decide) _ _ (by rfl) (by rfl) 1 2 _ _ (by rfl) (by rfl)

end Yukino.Replica
