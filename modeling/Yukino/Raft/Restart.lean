import Yukino.Raft.Delivery

set_option autoImplicit false

/-!
# Restarting a node on its storage

A node that is started again should continue with the commit index of its saved hard state
and with the applied index of its configuration. `StartNode` does this only in one case: it
sets the commit index to the last index of the log, and it moves the applied index while
the commit index is still `0`.

## Main definitions

* `Restores` — the restart neither panics nor invents or forgets commits.

## Main results

* `restores_iff` — exactly when it does so.
* `restart_invents_commit`, a run that ends in a storage where it does not.
-/

namespace Yukino.Replica

open Outcome

/-- `StartNode` does not panic, the node starts with the saved commit index and the
configured applied index, and its first `Ready` delivers no entry beyond the former. -/
def Restores (conf : Config) (peers : List ℕ) (rand : ℕ → ℕ) : Prop :=
  ∃ n, startNode conf peers rand = .ok n ∧
    n.raft.raftLog.commitIndex = conf.storage.hardState.commitIndex ∧
    n.raft.raftLog.applyIndex = conf.applied ∧
    ∀ rd, newReady n.raft n.prevSoft n.prevHard = .ok rd →
      ∀ e ∈ rd.committedEntries, e.index ≤ conf.storage.hardState.commitIndex

/-- **When a restart restores the commit index.** For every storage that a node has at some
point of a run, and every applied index, the restart does what it should exactly when
nothing was applied and the log ends at the saved commit index.

**Proof sketch.** The commit index is set to the last index of the storage. The applied
index is set while the commit index is `0`, so only `0` passes the test of `appliedTo`. -/
theorem restores_iff (c : ClusterConfig) (evs : List Event) (s : Cluster)
    (hs : c.exec evs = .ok s) (i : ℕ) (n : Node) (hn : s.nodes.lookup i = some n)
    (conf : Config) (peers : List ℕ) (rand : ℕ → ℕ)
    (hconf : conf.storage = n.raft.raftLog.storage) :
    Restores conf peers rand ↔
      conf.applied = 0 ∧ conf.storage.lastIndex = conf.storage.hardState.commitIndex := by
  have hnode := (c.exec_wf evs s hs).2.nodes i n hn
  have hst : Consec 0 conf.storage.entries := by
    rw [hconf]
    exact hnode.raft.log.stored
  have hsaved : conf.storage.hardState.commitIndex < conf.storage.entries.length := by
    rw [hconf]
    exact hnode.saved
  constructor
  · rintro ⟨n', hn', hcommit, -, -⟩
    obtain ⟨h0, hlog⟩ := Node.started_log (startNode_ensures conf peers rand n' hn') hst
    rw [hlog] at hcommit
    exact ⟨h0, hcommit⟩
  · rintro ⟨h0, hlast⟩
    have happ : (RaftLog.new conf.storage).appliedTo conf.applied =
        .ok (RaftLog.new conf.storage) := by
      rw [h0]
      rfl
    obtain ⟨n', hn', hstarted⟩ := startNode_returns conf peers rand happ
    obtain ⟨-, hlog⟩ := Node.started_log hstarted hst
    have hwf := Node.WF.of_started hstarted hst hsaved
    have hcommit : n'.raft.raftLog.commitIndex = conf.storage.hardState.commitIndex := by
      rw [hlog]
      exact hlast
    refine ⟨n', hn', hcommit, by rw [hlog, h0], fun rd hrd e he => ?_⟩
    -- the first `Ready` delivers the entries up to the commit index
    rw [hwf.newReady_eq] at hrd
    cases hrd
    obtain ⟨k, hk⟩ := List.mem_iff_getElem?.mp he
    rw [List.getElem?_take] at hk
    split at hk
    · rw [List.getElem?_drop] at hk
      have := hwf.raft.log.consec_abs _ e hk
      omega
    · cases hk

/-- A single node has committed, saved and applied one entry. -/
def commitOne : List Event := [.campaign 1, .ready 1, .advance 1]

/-- When all stored entries are committed and `Applied` is left at `0`, a restart works. -/
theorem restores_iff_commitOne : ∃ s n,
    FixedCluster.solo.exec commitOne = .ok s ∧
    s.nodes.lookup 1 = some n ∧ n.raft.raftLog.storage.hardState.commitIndex = 1 ∧
    Restores { id := 1, storage := n.raft.raftLog.storage } [1] fun _ => 0 := by
  refine ⟨_, _, rfl, rfl, rfl, ?_⟩
  exact (restores_iff FixedCluster.solo.toClusterConfig commitOne _ rfl 1 _ rfl _ [1] (fun _ => 0)
    rfl).2 ⟨rfl, rfl⟩

/-- A candidate of three nodes becomes leader and saves its first entry, which no other node
has seen. -/
def saveUncommitted : List Event :=
  electNode1 ++ [.ready 1, .advance 1]

/-- **A restart invents a commit, or panics.** A leader has saved an entry at index `1` while
the saved commit index is `0`: started again, it takes the entry for committed and delivers
it. And a node that has applied its one committed entry cannot be started with
`Applied = 1` at all. -/
theorem restart_invents_commit :
    (∃ s n n' rd, FixedCluster.trio.exec saveUncommitted = .ok s ∧
      s.nodes.lookup 1 = some n ∧ n.raft.raftLog.storage.hardState.commitIndex = 0 ∧
      startNode { id := 1, storage := n.raft.raftLog.storage } [1, 2, 3] (fun _ => 0) = .ok n' ∧
      n'.raft.raftLog.commitIndex = 1 ∧
      newReady n'.raft n'.prevSoft n'.prevHard = .ok rd ∧
      rd.committedEntries = [{ term := 2, index := 1 }]) ∧
    ∃ s n, FixedCluster.solo.exec commitOne = .ok s ∧
      s.nodes.lookup 1 = some n ∧ n.raft.raftLog.storage.hardState.commitIndex = 1 ∧
      startNode { id := 1, storage := n.raft.raftLog.storage, applied := 1 } [1] (fun _ => 0) =
        .error (.raised "invalid apply index") :=
  ⟨⟨_, _, _, _, rfl, rfl, rfl, rfl, rfl, rfl, rfl⟩, ⟨_, _, rfl, rfl, rfl, rfl⟩⟩

end Yukino.Replica
