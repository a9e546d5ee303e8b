import Yukino.Raft.Actions
import Yukino.Raft.Cluster

set_option autoImplicit false

/-!
# What an event of a cluster does

An event is a round of one node, or its restart. A round either reacts to a message by a
sequence of actions, or hands out a `Ready`, or takes an `Advance`, or applies a membership
change. The invariants of runs are proved along these cases.

## Main definitions

* `Started` — the state of a node after `StartNode`.
* `Event.Gives` — the messages that an event can make a node react to.
* `ClusterConfig.Change` — the effect of an event.
* `ClusterConfig.electsOnly` — a condition on the nodes that become leader.

## Main results

* `ClusterConfig.step_change` — every event has one of these effects.
* `ClusterConfig.exec_invariant` — the induction over runs.
-/

namespace Yukino.Replica

open Outcome List AList Bool

/-! ## The start of a node -/

/-- The state of a node after `StartNode`. -/
structure Started (conf : Config) (peers : List ℕ) (n : Node) : Prop where
  id : n.raft.id = conf.id
  term : n.raft.term = if conf.storage.hardState.term = 0 then 1 else conf.storage.hardState.term
  vote : n.raft.vote = noneID
  lead : n.raft.lead = noneID
  state : n.raft.state = .follower
  votes : n.raft.votes = ∅
  msgs : n.raft.msgs = []
  readStates : n.raft.readStates = []
  readOnly : n.raft.readOnly = {}
  mem_prs : ∀ j, j ∈ n.raft.prs ↔ j ∈ conf.peers ∨ j ∈ peers
  progress : ∀ j pr, n.raft.prs.lookup j = some pr → pr.matchIndex = 0
  sane : n.raft.Sane
  raftLog : ∃ k, (RaftLog.new conf.storage).appliedTo conf.applied =
      .ok { RaftLog.new conf.storage with applyIndex := k } ∧
    n.raft.raftLog = { RaftLog.new conf.storage with
      applyIndex := k, commitIndex := conf.storage.lastIndex }
  advanceChan : n.advanceChan = false
  prevHard : n.prevHard = emptyHardState
  hasPrevLastUnstableI : n.hasPrevLastUnstableI = false
  handed : n.handed = []

lemma Started.term_pos {conf : Config} {peers : List ℕ} {n : Node} (h : Started conf peers n) :
    1 ≤ n.raft.term := by
  rw [h.term]
  split <;> omega

/-- What `newRaft` and `addNode` leave of a node's progress map. -/
structure Fresh (ids : List ℕ) (prs : AList fun _ : ℕ => Progress) : Prop where
  mem : ∀ j, j ∈ prs ↔ j ∈ ids
  progress : ∀ j pr, prs.lookup j = some pr → pr.matchIndex = 0

lemma Fresh.insert {ids : List ℕ} {prs : AList fun _ : ℕ => Progress} (h : Fresh ids prs)
    (i next : ℕ) : Fresh (ids ++ [i]) (prs.insert i { next := next }) where
  mem j := by
    rw [mem_insert, h.mem, mem_append, mem_singleton]
    exact or_comm
  progress j pr hpr := by
    rcases eq_or_ne j i with rfl | hj
    · rw [lookup_insert] at hpr
      cases hpr
      rfl
    · rw [lookup_insert_ne hj] at hpr
      exact h.progress j pr hpr

lemma Fresh.of_peers (peers : List ℕ) :
    Fresh peers (peers.foldl (fun prs peer => prs.insert peer { next := 1 }) ∅) := by
  induction peers using reverseRecOn with
  | nil => exact ⟨fun j => by simp, fun j pr hpr => by simp at hpr⟩
  | append_singleton peers p ih =>
    rw [foldl_append]
    exact ih.insert p 1

/-- `StartNode` adds its second argument to the peers. -/
lemma addNodes_eq (r : Raft) {ids : List ℕ} (h : Fresh ids r.prs) (peers : List ℕ) :
    ∃ prs, peers.foldl Raft.addNode r = { r with prs := prs } ∧ Fresh (ids ++ peers) prs := by
  induction peers using reverseRecOn with
  | nil => exact ⟨r.prs, rfl, by simpa using h⟩
  | append_singleton peers p ih =>
    obtain ⟨prs, heq, hprs⟩ := ih
    rw [foldl_append, heq, ← append_assoc]
    change ∃ prs', Raft.addNode _ p = _ ∧ _
    unfold Raft.addNode
    split_ifs with hmem
    · refine ⟨prs, rfl, fun j => ?_, hprs.progress⟩
      have hp : p ∈ ids ++ peers := (hprs.mem p).1 hmem
      rw [hprs.mem, mem_append (t := [p]), mem_singleton]
      constructor
      · exact .inl
      · rintro (hj | rfl)
        · exact hj
        · exact hp
    · exact ⟨_, rfl, hprs.insert p _⟩

lemma appliedTo_ensures (l : RaftLog) (i : ℕ) :
    Ensures (l.appliedTo i) fun l' => ∃ k, l' = { l with applyIndex := k } := by
  unfold RaftLog.appliedTo
  split
  · exact .ok ⟨l.applyIndex, rfl⟩
  split
  · exact .error _
  · exact .ok ⟨i, rfl⟩

/-- **What `StartNode` returns.** It panics only when `appliedTo` does. -/
lemma startNode_returns (conf : Config) (peers : List ℕ) (rand : ℕ → ℕ) {l : RaftLog}
    (h : (RaftLog.new conf.storage).appliedTo conf.applied = .ok l) :
    Returns (startNode conf peers rand) (Started conf peers) := by
  obtain ⟨k, rfl⟩ := appliedTo_ensures _ _ _ h
  have hr : ∃ r, newRaft conf rand = .ok r ∧ r.id = conf.id ∧
      r.term = (if conf.storage.hardState.term = 0 then 1 else conf.storage.hardState.term) ∧
      r.vote = noneID ∧ r.lead = noneID ∧ r.state = .follower ∧ r.votes = ∅ ∧ r.msgs = [] ∧
      r.readStates = [] ∧ r.readOnly = {} ∧ Fresh conf.peers r.prs ∧ r.Sane ∧
      ∃ c, r.raftLog = { RaftLog.new conf.storage with applyIndex := k, commitIndex := c } := by
    unfold newRaft
    rw [h]
    refine ⟨_, rfl, rfl, Raft.becomeFollower_term _ _, ?_, rfl, rfl, rfl, rfl, rfl, rfl,
      Fresh.of_peers _, ⟨rfl, rfl⟩, ?_⟩
    · simp only [Raft.becomeFollower_vote, ite_self]
    · by_cases hc : conf.storage.hardState.commitIndex > (RaftLog.new conf.storage).commitIndex
      · exact ⟨_, if_pos hc⟩
      · exact ⟨_, if_neg hc⟩
  obtain ⟨r, hnew, hid, hterm, hvote, hlead, hstate, hvotes, hmsgs, hrs, hro, hfresh, hsane, c,
    hl⟩ := hr
  obtain ⟨prs, hadd, hprs⟩ := addNodes_eq r hfresh peers
  unfold startNode
  rw [hnew]
  change Returns (.ok _) _
  rw [hadd]
  refine .ok
    { id := hid, term := hterm, vote := hvote, lead := hlead, state := hstate, votes := hvotes
      msgs := hmsgs, readStates := hrs, readOnly := hro
      sane := ⟨hsane.stepFunc, hsane.checkQuorum⟩, progress := hprs.progress
      mem_prs := fun j => ?_, raftLog := ⟨k, h, ?_⟩, advanceChan := rfl, prevHard := rfl
      hasPrevLastUnstableI := rfl, handed := rfl }
  · exact (hprs.mem j).trans mem_append
  · rw [hl]
    rfl

lemma startNode_ensures (conf : Config) (peers : List ℕ) (rand : ℕ → ℕ) :
    Ensures (startNode conf peers rand) (Started conf peers) := by
  intro n hn
  obtain ⟨r, hr, -⟩ := bind_eq_ok.1 hn
  obtain ⟨l, hl, -⟩ := bind_eq_ok.1 hr
  obtain ⟨n', hn', hstarted⟩ := startNode_returns conf peers rand hl
  rw [hn] at hn'
  cases hn'
  exact hstarted

/-! ## Rounds of a node -/

/-- The messages that an input makes a node react to. -/
def Input.Carries (inp : Input) (i : ℕ) (m : Message) : Prop :=
  match inp with
  | .proc m₀ => m = { m₀ with fromID := i }
  | .recv m₀ => m = m₀
  | .tick => (m.type = .msgHup ∨ m.type = .msgBeat) ∧ m.term = 0
  | _ => False

namespace Node

/-- Saving a `Ready` touches the log and the two flags. -/
lemma takeAdvance_ok {n n' : Node} (h : n.takeAdvance = .ok n') : ∃ l, n' = { n with
    raft := { n.raft with raftLog := l }
    hasPrevLastUnstableI := false
    advanceChan := false } := by
  obtain ⟨l₁, -, h₁⟩ := bind_eq_ok.1 h
  obtain ⟨l₂, -, h₂⟩ := bind_eq_ok.1 h₁
  cases h₂
  exact ⟨l₂, rfl⟩

/-- The effect of a round on a node. -/
inductive Round (n : Node) (inp : Input) : Node → Prop
  /-- Nothing happens, but the next `Ready` may have been computed. -/
  | idle (rd : Ready) (hinp : inp = .ready ∨ inp = .advance)
      (hrd : n.advanceChan → rd = n.rd) : Round n inp { n with rd := rd }
  | react (m : Message) (rd : Ready) (r : Raft) (hrd : n.advanceChan → rd = n.rd)
      (hm : inp.Carries n.raft.id m) (ha : Raft.Actions m n.raft r) :
    Round n inp { n with rd := rd, raft := r }
  | conf (cc : ConfChange) (rd : Ready) (hinp : inp = .conf cc)
      (hrd : n.advanceChan → rd = n.rd) :
    Round n inp { n with rd := rd, raft := n.raft.applyConfChange cc }
  | ready (rd : Ready) (hinp : inp = .ready) (hidle : n.advanceChan = false)
      (hrd : newReady n.raft n.prevSoft n.prevHard = .ok rd) :
    Round n inp { n with rd := rd }.takeReady
  | advance {n' : Node} (hinp : inp = .advance) (hout : n.advanceChan = true)
      (ha : n.takeAdvance = .ok n') : Round n inp n'

lemma prepare_ensures (n : Node) :
    Ensures n.prepare fun n' => ∃ rd, n' = { n with rd := rd } ∧
      (n.advanceChan = true → rd = n.rd) ∧
      (n.advanceChan = false → newReady n.raft n.prevSoft n.prevHard = .ok rd) := by
  unfold prepare
  split_ifs with h
  · exact .ok ⟨n.rd, rfl, fun _ => rfl, fun hf => by rw [h] at hf; cases hf⟩
  · refine Ensures.bind (P := fun rd => newReady n.raft n.prevSoft n.prevHard = .ok rd)
      (fun rd hrd => hrd) fun rd hrd => ?_
    exact .ok ⟨rd, rfl, fun ht => absurd ht h, fun _ => hrd⟩

/-- **Every round has one of these effects.** -/
lemma handle_round (n : Node) (inp : Input) (hn : n.raft.Sane) :
    Ensures (n.handle inp) (Round n inp) := by
  refine (prepare_ensures n).bind ?_
  rintro n₁ ⟨rd, rfl, hout, hidle⟩
  cases inp with
  | proc | recv =>
    refine (Raft.step_actions hn).bind fun r hr => .ok ?_
    exact .react _ rd r hout rfl hr
  | conf cc => exact .ok (.conf cc rd rfl hout)
  | tick =>
    refine (Raft.tick_actions hn).bind ?_
    rintro r ⟨m, hm, h0, hr⟩
    exact .ok (.react m rd r hout ⟨hm, h0⟩ hr)
  | ready =>
    refine .ok ?_
    split_ifs with h
    · have hf : n.advanceChan = false := by simpa using h.1
      exact .ready rd rfl hf (hidle hf)
    · exact .idle rd (.inl rfl) hout
  | advance =>
    dsimp only
    split_ifs with h
    · intro n' hn'
      rw [hout h] at hn'
      exact .advance rfl h hn'
    · exact .ok (.idle rd (.inr rfl) hout)

end Node

/-! ## Events of a cluster -/

/-- The messages that an event makes node `i` react to: those of the calls of the embedding
application, and those that the network delivers. A proposal that is passed to `Node.step`
gets a new sender. -/
def Event.Gives (ev : Event) (s : Cluster) (i : ℕ) (m : Message) : Prop :=
  match ev with
  | .tick j => j = i ∧ (m.type = .msgHup ∨ m.type = .msgBeat) ∧ m.term = 0
  | .campaign j => j = i ∧ m = campaignMsg
  | .propose j data => j = i ∧ m = { proposeMsg data with fromID := i }
  | .proposeConfChange j data => j = i ∧ m = { proposeConfChangeMsg data with fromID := i }
  | .readIndex j rctx => j = i ∧ m = readIndexMsg rctx
  | .deliver m₀ => m₀ ∈ s.net ∧ m₀.toID = i ∧ m = m₀
  | .deliverStep m₀ => m₀ ∈ s.net ∧ m₀.toID = i ∧
      (m = m₀ ∨ m₀.type = .msgProp ∧ m = { m₀ with fromID := i })
  | _ => False

/-- The messages of the embedding application, which are also passed on for it. -/
def MessageType.isLocal : MessageType → Bool
  | .msgHup | .msgBeat | .msgProp | .msgReadIndex => true
  | _ => false

/-- The message is a local one, or it is in the network and addressed to node `i`. -/
def Message.Given (net : List Message) (i : ℕ) (m : Message) : Prop :=
  m.type.isLocal = true ∨ m ∈ net ∧ m.toID = i

lemma Message.Given.mem {net : List Message} {i : ℕ} {m : Message} (h : m.Given net i)
    (hm : m.type.isLocal = false) : m ∈ net ∧ m.toID = i := by
  rcases h with hlocal | h
  · simp [hm] at hlocal
  · exact h

/-- What an event can make a node react to. -/
lemma given_of_event {s : Cluster} {ev : Event} {i : ℕ} {m : Message} (h : ev.Gives s i m) :
    m.Given s.net i := by
  cases ev with
  | tick j =>
    left
    rcases h.2.1 with ht | ht
    all_goals rw [ht]; rfl
  | campaign | propose | proposeConfChange | readIndex => left; rw [h.2]; rfl
  | deliver m₀ =>
    obtain ⟨hmem, hto, rfl⟩ := h
    exact .inr ⟨hmem, hto⟩
  | deliverStep m₀ =>
    obtain ⟨hmem, hto, rfl | ⟨hprop, rfl⟩⟩ := h
    · exact .inr ⟨hmem, hto⟩
    · left
      rw [hprop]
      rfl
  | ready | advance | applyConfChange | restart => exact absurd h id

/-- A node becomes leader, from one state of a cluster to the next. -/
def Node.becomesLeader (n n' : Node) : Bool :=
  n'.raft.state = .leader ∧ ¬ (n.raft.state = .leader ∧ n.raft.term = n'.raft.term)

namespace ClusterConfig

/-- The effect of an event on a cluster. -/
inductive Change (c : ClusterConfig) (s : Cluster) (ev : Event) : Cluster → Prop
  | skip : Change c s ev s
  | idle (i : ℕ) (n : Node) (rd : Ready) (hn : s.nodes.lookup i = some n)
      (hrd : n.advanceChan → rd = n.rd) :
    Change c s ev { s with nodes := s.nodes.insert i { n with rd := rd } }
  | react (i : ℕ) (n : Node) (m : Message) (rd : Ready) (r : Raft)
      (hn : s.nodes.lookup i = some n) (hrd : n.advanceChan → rd = n.rd)
      (hm : ev.Gives s i m)
      (ha : Raft.Actions m n.raft r) :
    Change c s ev { s with nodes := s.nodes.insert i { n with rd := rd, raft := r } }
  | ready (i : ℕ) (n : Node) (rd : Ready) (hn : s.nodes.lookup i = some n)
      (hidle : n.advanceChan = false)
      (hrd : newReady n.raft n.prevSoft n.prevHard = .ok rd) :
    Change c s ev { s with nodes := s.nodes.insert i { n with rd := rd }.takeReady
                           net := s.net ++ rd.message }
  | advance (i : ℕ) (n n' : Node) (hn : s.nodes.lookup i = some n)
      (hout : n.advanceChan = true) (ha : n.takeAdvance = .ok n') :
    Change c s ev { s with nodes := s.nodes.insert i n' }
  | conf (i index : ℕ) (cc : ConfChange) (n : Node) (rd : Ready)
      (hev : ev = .applyConfChange i index cc) (hn : s.nodes.lookup i = some n)
      (hrd : n.advanceChan → rd = n.rd) (hmay : s.mayApply i index) :
    Change c s ev { s with
      nodes := s.nodes.insert i { n with rd := rd, raft := n.raft.applyConfChange cc }
      confs := s.confs ++ [(i, index)] }
  | restart (i applied : ℕ) (rand : ℕ → ℕ) (n n' : Node) (hev : ev = .restart i applied rand)
      (hn : s.nodes.lookup i = some n) (hstop : mayStop n = true)
      (hs : Started (c.config i n.raft.raftLog.storage applied) (c.peers i) n') :
    Change c s ev { s with nodes := s.nodes.insert i n' }

end ClusterConfig

/-- Every node has the id under which it is kept, and its role and its `step` agree. -/
def Cluster.Sane (s : Cluster) : Prop :=
  ∀ i n, s.nodes.lookup i = some n → n.raft.id = i ∧ n.raft.Sane

namespace Cluster

/-- A property of all nodes survives when it holds of the one that is replaced. -/
lemma forall_insert {P : ℕ → Node → Prop} {nodes : AList fun _ : ℕ => Node} {i : ℕ} {n : Node}
    (h : ∀ j m, nodes.lookup j = some m → P j m) (hi : P i n) :
    ∀ j m, (nodes.insert i n).lookup j = some m → P j m := by
  intro j m hjm
  rcases eq_or_ne j i with rfl | hj
  · rw [lookup_insert] at hjm
    cases hjm
    exact hi
  · rw [lookup_insert_ne hj] at hjm
    exact h j m hjm

end Cluster

namespace ClusterConfig

variable {c : ClusterConfig} {s : Cluster} {ev : Event}

variable {i : ℕ} {s' : Cluster} {ok : Cluster → Event → Bool} {P : Cluster → Prop}
  {evs : List Event}

/-- A round of node `i` that is no membership change. -/
lemma input_change {inp : Input} (hs : s.Sane) (hconf : ∀ cc, inp ≠ .conf cc)
    (hinp : ∀ m, inp.Carries i m → ev.Gives s i m) :
    Ensures (s.input i inp) (c.Change s ev) := by
  unfold Cluster.input
  split
  · exact .ok .skip
  · rename_i n hn
    obtain ⟨hid, hsane⟩ := hs i n hn
    refine (Node.handle_round n inp hsane).bind fun n' hn' => .ok ?_
    have hsame : ∀ {n'' : Node}, n''.handed = n.handed →
        s.net ++ (n''.handed.drop n.handed.length).flatMap Ready.message = s.net := by
      intro n'' h
      rw [h]
      simp
    cases hn' with
    | idle rd _ hrd =>
      rw [hsame rfl]
      exact .idle i n rd hn hrd
    | react m rd r hrd hm ha =>
      rw [hsame rfl]
      rw [hid] at hm
      exact .react i n m rd r hn hrd (hinp m hm) ha
    | conf cc _ h => exact absurd h (hconf cc)
    | ready rd _ hidle hrd =>
      have hsent : (({ n with rd := rd }.takeReady).handed.drop n.handed.length).flatMap
          Ready.message = rd.message := by
        change ((n.handed ++ [rd]).drop n.handed.length).flatMap Ready.message = rd.message
        simp
      rw [hsent]
      exact .ready i n rd hn hidle hrd
    | advance _ hout ha =>
      rw [hsame]
      · exact .advance i n n' hn hout ha
      · obtain ⟨l, rfl⟩ := Node.takeAdvance_ok ha
        rfl

lemma input_conf_change {index : ℕ} {cc : ConfChange} (hs : s.Sane)
    (hmay : s.mayApply i index) :
    Ensures (do
      let s' ← s.input i (.conf cc)
      .ok { s' with confs := s'.confs ++ [(i, index)] })
      (c.Change s (.applyConfChange i index cc)) := by
  obtain ⟨n, hn⟩ : ∃ n, s.nodes.lookup i = some n := by
    unfold Cluster.mayApply at hmay
    split at hmay
    · cases hmay
    · rename_i n hn
      exact ⟨n, hn⟩
  unfold Cluster.input
  rw [hn]
  refine Ensures.bind (P := fun s' => ∃ rd, (n.advanceChan → rd = n.rd) ∧ s' = { s with
    nodes := s.nodes.insert i { n with rd := rd, raft := n.raft.applyConfChange cc } }) ?_ ?_
  · refine (Node.handle_round n (.conf cc) (hs i n hn).2).bind fun n' hn' => .ok ?_
    cases hn' with
    | idle rd h => simp at h
    | react m rd r hrd hm ha => exact absurd hm id
    | conf cc' rd h hrd =>
      cases h
      refine ⟨rd, hrd, ?_⟩
      simp
    | ready _ h | advance h => cases h
  · rintro s' ⟨rd, hrd, rfl⟩
    exact .ok (.conf i index cc n rd rfl hn hrd hmay)

/-- An event of a run with fixed membership is a round of one node, or it has no effect. -/
lemma step_fixed (c : ClusterConfig) (s : Cluster) {ev : Event} (hev : ev.isFixed = true) :
    c.step s ev = .ok s ∨ ∃ i inp, c.step s ev = s.input i inp ∧ (∀ cc, inp ≠ .conf cc) ∧
      ∀ m, inp.Carries i m → ev.Gives s i m := by
  have hno : ∀ m cc, Input.ofMessage m ≠ .conf cc := by
    intro m cc
    unfold Input.ofMessage
    split <;> simp
  cases ev with
  | tick i => exact .inr ⟨i, _, rfl, by simp, fun m hm => ⟨rfl, hm⟩⟩
  | campaign i | propose i _ | proposeConfChange i _ | readIndex i _ =>
    exact .inr ⟨i, _, rfl, hno _, fun m hm => ⟨rfl, hm⟩⟩
  | ready i | advance i => exact .inr ⟨i, _, rfl, by simp, fun m hm => absurd hm id⟩
  | deliver m =>
    dsimp only [step]
    split_ifs with hmem
    · refine .inr ⟨_, _, rfl, by simp, fun m' hm' => ?_⟩
      cases hm'
      exact ⟨hmem, rfl, rfl⟩
    · exact .inl rfl
  | deliverStep m =>
    dsimp only [step]
    split_ifs with hmem
    · refine .inr ⟨_, _, rfl, hno _, fun m' hm' => ?_⟩
      unfold Input.ofMessage at hm'
      split_ifs at hm' with hprop
      · cases hm'
        exact ⟨hmem, rfl, .inr ⟨hprop, rfl⟩⟩
      · cases hm'
        exact ⟨hmem, rfl, .inl rfl⟩
    · exact .inl rfl
  | applyConfChange | restart => cases hev

/-- **Every event has one of the effects `Change`.** -/
lemma step_change (hs : s.Sane) : Ensures (c.step s ev) (c.Change s ev) := by
  by_cases hev : ev.isFixed = true
  · rcases c.step_fixed s hev with heq | ⟨i, inp, heq, hconf, hinp⟩
    · rw [heq]
      exact .ok .skip
    · rw [heq]
      exact input_change hs hconf hinp
  cases ev with
  | applyConfChange i index cc =>
    dsimp only [step]
    split_ifs with hmay
    · exact input_conf_change hs hmay
    · exact .ok .skip
  | restart i applied rand =>
    dsimp only [step]
    unfold restart
    split
    · exact .ok .skip
    · rename_i n hn
      split_ifs with hstop
      · refine (startNode_ensures _ _ _).bind fun n' hn' => .ok ?_
        exact .restart i applied rand n n' rfl hn hstop hn'
      · exact .ok .skip
  | tick | campaign | propose | proposeConfChange | readIndex | ready | advance | deliver
  | deliverStep => exact absurd rfl hev

/-! ## Runs -/

lemma Change.sane (h : c.Change s ev s') (hs : s.Sane) : s'.Sane := by
  cases h with
  | skip => exact hs
  | idle i n rd hn => exact Cluster.forall_insert hs (hs i n hn)
  | react i n m rd r hn _ _ ha =>
    obtain ⟨hid, hsane⟩ := hs i n hn
    exact Cluster.forall_insert hs ⟨ha.kept.id.trans hid, ha.kept.sane hsane⟩
  | ready i n rd hn =>
    obtain ⟨hid, hsane⟩ := hs i n hn
    exact Cluster.forall_insert hs ⟨hid, hsane.stepFunc, hsane.checkQuorum⟩
  | advance i n n' hn _ ha =>
    obtain ⟨hid, hsane⟩ := hs i n hn
    obtain ⟨l, rfl⟩ := Node.takeAdvance_ok ha
    exact Cluster.forall_insert hs ⟨hid, hsane.stepFunc, hsane.checkQuorum⟩
  | conf i index cc n rd _ hn =>
    obtain ⟨hid, hsane⟩ := hs i n hn
    have hf := n.raft.applyConfChange_frame cc
    exact Cluster.forall_insert hs ⟨hf.id.trans hid, hf.sane hsane⟩
  | restart i applied rand n n' _ hn _ hst => exact Cluster.forall_insert hs ⟨hst.id, hst.sane⟩

/-- The state of the cluster before the first event. -/
structure Begun (c : ClusterConfig) (s : Cluster) : Prop where
  net : s.net = []
  confs : s.confs = []
  nodes : ∀ i n, s.nodes.lookup i = some n →
    i ∈ c.ids ∧ Started (c.config i MemoryStorage.new 0) (c.peers i) n

lemma startFresh_returns (c : ClusterConfig) (i : ℕ) :
    Returns (c.startFresh i) (Started (c.config i MemoryStorage.new 0) (c.peers i)) :=
  startNode_returns _ _ _ (l := RaftLog.new MemoryStorage.new) rfl

/-- **All nodes of a cluster can be started.** -/
lemma start_returns (c : ClusterConfig) : Returns c.start c.Begun := by
  refine Returns.foldlM ⟨rfl, rfl, fun i n hn => by simp at hn⟩ fun i hi s hs => ?_
  refine (c.startFresh_returns i).bind fun n hn => .ok ?_
  exact ⟨hs.net, hs.confs, Cluster.forall_insert hs.nodes ⟨hi, hn⟩⟩

lemma Begun.sane (h : c.Begun s) : s.Sane :=
  fun i n hn => ⟨(h.nodes i n hn).2.id, (h.nodes i n hn).2.sane⟩

/-- **Induction over the events of a run** that all meet the condition `ok`. -/
lemma along_invariant
    (hok : c.along ok s evs = true) (hs : s.Sane) (h : P s)
    (hstep : ∀ s ev s', ok s ev = true → s.Sane → c.step s ev = .ok s' → P s → P s') :
    Ensures (c.run s evs) fun s' => s'.Sane ∧ P s' := by
  induction evs generalizing s with
  | nil => exact .ok ⟨hs, h⟩
  | cons ev evs ih =>
    rw [along, and_eq_true] at hok
    intro s₂ hs₂
    obtain ⟨s₁, hs₁, hrun⟩ := bind_eq_ok.1 hs₂
    have hc := step_change hs s₁ hs₁
    rw [hs₁] at hok
    exact ih hok.2 (hc.sane hs) (hstep s ev s₁ hok.1 hs hs₁ h) s₂ hrun

/-- A condition that holds along a run holds along its two parts. -/
lemma along_append {evs' : List Event}
    (hok : c.along ok s (evs ++ evs') = true) (hs : c.run s evs = .ok s') :
    c.along ok s evs = true ∧ c.along ok s' evs' = true := by
  induction evs generalizing s with
  | nil =>
    cases hs
    exact ⟨rfl, hok⟩
  | cons ev evs ih =>
    rw [cons_append, along, and_eq_true] at hok
    obtain ⟨s₁, hs₁, hrun⟩ := bind_eq_ok.1 hs
    rw [hs₁] at hok
    obtain ⟨h1, h2⟩ := ih hok.2 hrun
    refine ⟨?_, h2⟩
    rw [along, hs₁, hok.1]
    exact h1

/-- The nodes that become leader by the event meet the condition `ok` afterwards. -/
def electsOnly (c : ClusterConfig) (ok : Cluster → ℕ → Node → Bool) (s : Cluster) (ev : Event) :
    Bool :=
  match c.step s ev with
  | .error _ => true
  | .ok s' => s.nodes.keys.all fun i =>
    match s.nodes.lookup i, s'.nodes.lookup i with
    | some n, some n' => !n.becomesLeader n' || ok s' i n'
    | _, _ => true

/-- What `electsOnly` says of one node. -/
lemma electsOnly_node {ok : Cluster → ℕ → Node → Bool}
    (h : c.electsOnly ok s ev = true) (hstep : c.step s ev = .ok s') {n n' : Node}
    (hn : s.nodes.lookup i = some n) (hn' : s'.nodes.lookup i = some n')
    (hl : n'.raft.state = .leader)
    (hnew : ¬ (n.raft.state = .leader ∧ n.raft.term = n'.raft.term)) : ok s' i n' = true := by
  unfold electsOnly at h
  rw [hstep, all_eq_true] at h
  have hkey : i ∈ s.nodes.keys := mem_keys.2 (lookup_isSome.1 (by rw [hn]; rfl))
  have hi := h i hkey
  rw [hn, hn'] at hi
  have hbecomes : n.becomesLeader n' = true := by
    unfold Node.becomesLeader
    rw [decide_eq_true_eq]
    exact ⟨hl, hnew⟩
  simpa only [hbecomes, Bool.not_true, Bool.false_or] using hi

/-- The network only grows. -/
lemma Change.net_subset (h : c.Change s ev s') : s.net ⊆ s'.net := by
  cases h with
  | ready => exact subset_append_left _ _
  | skip | idle | react | advance | conf | restart => exact List.Subset.refl _

/-- What holds of the messages in the network, and of those that the nodes have not handed out. -/
lemma Change.forall_net {Q : Message → Prop} (h : c.Change s ev s') (hnet : ∀ m ∈ s.net, Q m)
    (hmsgs : ∀ i n, s.nodes.lookup i = some n → ∀ m ∈ n.raft.msgs, Q m) : ∀ m ∈ s'.net, Q m := by
  cases h with
  | ready i n rd hn _ hrd =>
    obtain ⟨ces, -, hrd⟩ := bind_eq_ok.1 hrd
    cases hrd
    exact forall_mem_append.2 ⟨hnet, hmsgs i n hn⟩
  | skip | idle | react | advance | conf | restart => exact hnet

/-- A condition that does not depend on the state holds along every run. -/
lemma along_of_forall
    (h : ∀ ev ∈ evs, ∀ s, ok s ev = true) (s : Cluster) : c.along ok s evs = true := by
  induction evs generalizing s with
  | nil => rfl
  | cons ev evs ih =>
    rw [along, h ev (by simp)]
    split
    · exact ih (fun ev' hev' => h ev' (by simp [hev'])) _
    · rfl

/-- **Induction over the events of a run.** -/
lemma run_invariant (hs : s.Sane) (h : P s)
    (hstep : ∀ s ev s', ev ∈ evs → s.Sane → c.Change s ev s' → P s → P s') :
    Ensures (c.run s evs) fun s' => s'.Sane ∧ P s' := by
  refine Ensures.foldlM (I := fun s => s.Sane ∧ P s) ⟨hs, h⟩ ?_
  rintro ev hev s₁ ⟨hs₁, h₁⟩
  exact (step_change hs₁).mono fun s₂ hs₂ => ⟨hs₂.sane hs₁, hstep s₁ ev s₂ hev hs₁ hs₂ h₁⟩

lemma exec_of_start (h : c.start = .ok s) (evs : List Event) : c.exec evs = c.run s evs := by
  unfold exec
  rw [h]
  rfl

lemma execAlong_of_start (h : c.start = .ok s) (ok : Cluster → Event → Bool)
    (evs : List Event) : c.execAlong ok evs = c.along ok s evs := by
  unfold execAlong
  rw [h]

/-- A run from the start begins in a state `Begun`. -/
lemma exec_eq (c : ClusterConfig) : ∃ s, c.Begun s ∧
    (∀ evs, c.exec evs = c.run s evs) ∧ ∀ ok evs, c.execAlong ok evs = c.along ok s evs := by
  obtain ⟨s, hs, hbegun⟩ := c.start_returns
  exact ⟨s, hbegun, exec_of_start hs, execAlong_of_start hs⟩

/-- **Induction over the events of a run from the start.** -/
lemma exec_invariant (h : ∀ s, c.Begun s → P s)
    (hstep : ∀ s ev s', ev ∈ evs → s.Sane → c.Change s ev s' → P s → P s') :
    Ensures (c.exec evs) fun s' => s'.Sane ∧ P s' := by
  obtain ⟨s, hbegun, hexec, -⟩ := c.exec_eq
  rw [hexec]
  exact run_invariant hbegun.sane (h s hbegun) hstep

end ClusterConfig

/-! ## Fixed membership -/

namespace FixedCluster

variable {c : FixedCluster}

/-- The nodes of a cluster, as a set. -/
def nodeSet (c : FixedCluster) : Finset ℕ := c.ids.toFinset

lemma noneID_notMem_nodeSet (c : FixedCluster) : noneID ∉ c.nodeSet := by
  rw [nodeSet, mem_toFinset]
  exact c.noneID_notMem

lemma mem_prs_of_started {i applied : ℕ} {st : MemoryStorage} {n : Node} (hi : i ∈ c.ids)
    (h : Started (c.config i st applied) (c.peers i) n) (j : ℕ) :
    j ∈ n.raft.prs ↔ j ∈ c.nodeSet := by
  rw [h.mem_prs, nodeSet, c.mem_peers_iff i hi]
  simp [ClusterConfig.config]

end FixedCluster

/-! ## Runs with two leaders -/

/-- The beginning of a run: node `1` is elected in term `2` by the vote of node `2`. -/
def electNode1 : List Event :=
  [.campaign 1, .ready 1, .advance 1,
    .deliver { type := .msgVote, fromID := 1, toID := 2, term := 2 }, .ready 2, .advance 2,
    .deliver { type := .msgVoteResp, fromID := 2, toID := 1, term := 2 }]

/-- Node `2` hears of its leader. -/
def hearOfLeader : List Event :=
  electNode1 ++ [.ready 1, .advance 1,
    .deliver { type := .msgApp, toID := 2, fromID := 1, term := 2,
               entries := [{ term := 2, index := 1 }] }]

/-- The leader commits its first entry. -/
def commitFirst : List Event :=
  hearOfLeader ++ [.ready 2, .advance 2,
    .deliver { type := .msgAppResp, toID := 1, fromID := 2, term := 2, logIndex := 1 },
    .ready 1, .advance 1]

/-- Then node `2` is elected in term `3` and commits both entries. -/
def commitSecond : List Event :=
  [.campaign 2, .ready 2, .advance 2,
    .deliver { type := .msgVote, toID := 1, fromID := 2, term := 3, logTerm := 2,
               logIndex := 1 },
    .ready 1, .advance 1,
    .deliver { type := .msgVoteResp, toID := 2, fromID := 1, term := 3 },
    .ready 2, .advance 2,
    .deliver { type := .msgApp, toID := 1, fromID := 2, term := 3, logTerm := 2, logIndex := 1,
               entries := [{ term := 3, index := 2 }] },
    .ready 1, .advance 1,
    .deliver { type := .msgAppResp, toID := 2, fromID := 1, term := 3, logIndex := 2 },
    .ready 2, .advance 2]

/-- Node `1` hears of the commit, and hands out the second entry. -/
def deliverSecond : List Event :=
  commitSecond ++ [.deliver { type := .msgApp, toID := 1, fromID := 2, term := 3, logTerm := 3,
                              logIndex := 2, commitIndex := 2 }, .ready 1]

end Yukino.Replica
