import Yukino.Raft.Delivery

set_option autoImplicit false

/-!
# Replication to one follower

A leader sends the entries from `Next` on. A follower that does not have the entry before them
rejects, and the leader tries again with a smaller `Next`. The previous entry of `Next = 1` is the
dummy, which every follower has, so the follower accepts in the end, and its log then starts with
the log of the leader.

## Main definitions

* `Exchange`, `Exchange.round`, `Exchange.probe` — the leader and the follower, one message with its
  answer, and rounds until the follower accepts.
* `Exchange.Probes` — what holds before each round.

## Main results

* `Exchange.Probes.round_cases` — a round is accepted, or `Next` decreases.
* `probing_converges` — the exchange ends, with the log of the leader in the follower.
-/

namespace Yukino.Replica

open Consensus Outcome
open List hiding merge

namespace Raft

/-- The log and the progress of a leader are in order. -/
structure Leading (r : Raft) : Prop where
  log : r.raftLog.WF
  terms : r.raftLog.TermsOk
  term_pos : 1 ≤ r.term
  next_pos : ∀ j pr, r.prs.lookup j = some pr → 1 ≤ pr.next

variable {r : Raft}

lemma Leading.insert (h : r.Leading) {id : ℕ} {pr : Progress} (hpr : 1 ≤ pr.next) :
    Leading { r with prs := r.prs.insert id pr } := by
  refine { h with next_pos := fun j q hq => ?_ }
  rcases eq_or_ne j id with rfl | hne
  · rw [AList.lookup_insert] at hq
    cases hq
    exact hpr
  · rw [AList.lookup_insert_ne hne] at hq
    exact h.next_pos j q hq

/-- The `MsgApp` with the entries from `next` on. -/
def appMsg (r : Raft) (id next : ℕ) : Message where
  toID := id
  type := .msgApp
  logTerm := termAt r.raftLog.abs (next - 1)
  logIndex := next - 1
  entries := r.raftLog.abs.drop (next - 1)
  commitIndex := r.raftLog.commitIndex

lemma Leading.sendAppend_eq (h : r.Leading) {id : ℕ} {pr : Progress}
    (hpr : r.prs.lookup id = some pr) : r.sendAppend id = .ok (r.send (r.appMsg id pr.next)) := by
  unfold sendAppend
  rw [hpr]
  dsimp only
  rw [h.log.term_eq h.terms, h.log.entriesFrom_eq (h.next_pos id pr hpr)]
  rfl

/-- Sending to all peers changes neither the log nor the progress. -/
lemma Leading.broadcastAppend_returns (h : r.Leading) : Returns r.broadcastAppend fun r' =>
    r'.raftLog = r.raftLog ∧ r'.prs = r.prs := by
  refine (Returns.foldlM (I := fun s => s.raftLog = r.raftLog ∧ s.prs = r.prs ∧ s.term = r.term)
    ⟨rfl, rfl, rfl⟩ ?_).mono fun s hs => ⟨hs.1, hs.2.1⟩
  rintro id hid s ⟨hlog, hprs, hterm⟩
  split
  · exact .ok ⟨hlog, hprs, hterm⟩
  · have hs : s.Leading := by
      refine ⟨?_, ?_, ?_, ?_⟩
      · rw [hlog]
        exact h.log
      · rw [hlog]
        exact h.terms
      · rw [hterm]
        exact h.term_pos
      · rw [hprs]
        exact h.next_pos
    obtain ⟨pr, hpr⟩ := Option.isSome_iff_exists.1
      (AList.lookup_isSome.2 (hprs ▸ AList.mem_keys.2 hid : id ∈ s.prs))
    rw [hs.sendAppend_eq hpr]
    exact .ok ⟨hlog, hprs, hterm⟩

end Raft

/-! ## Rounds -/

/-- A leader and one of its followers. -/
structure Exchange where
  leader : Raft
  follower : Raft

namespace Exchange

/-- The `Next` of the follower. -/
def next (x : Exchange) : ℕ := ((x.leader.prs.lookup x.follower.id).map Progress.next).getD 0

/-- The follower handles the last message of the leader, and the leader steps the answer. The result
says whether the follower has accepted. -/
def round (x : Exchange) : Go (Exchange × Bool) :=
  match x.leader.msgs.getLast? with
  | none => .error .indexOutOfRange
  | some m => do
    let follower ← x.follower.handleAppendEntries m
    match follower.msgs.getLast? with
    | none => .error .indexOutOfRange
    | some answer => do
      let leader ← x.leader.stepLeader answer
      .ok ({ leader, follower }, !answer.reject)

/-- Rounds until the follower accepts: the values of `Next` before the rounds, and the states in the
end. The result is `none` when more than `fuel` rounds are needed. -/
def probe : ℕ → Exchange → Go (Option (List ℕ × Exchange))
  | 0, _ => .ok none
  | fuel + 1, x => do
    let (x', accepted) ← x.round
    if accepted then .ok (some ([x.next], x'))
    else do
      let rest ← probe fuel x'
      .ok (rest.map fun (ns, y) => (x.next :: ns, y))

/-- The leader has sent the entries from `Next` on, and its log `L` and that of the follower match:
where they have the same term they are equal, and `L` has the committed entries of the follower. -/
structure Probes (L : List Entry) (pr : Progress) (x : Exchange) : Prop where
  leading : x.leader.Leading
  abs : x.leader.raftLog.abs = L
  lookup : x.leader.prs.lookup x.follower.id = some pr
  next_le : pr.next ≤ L.length + 1
  match_le : pr.matchIndex ≤ L.length
  sent : x.leader.msgs.getLast? = some (x.leader.stamp (x.leader.appMsg x.follower.id pr.next))
  log : x.follower.raftLog.WF
  terms : x.follower.raftLog.TermsOk
  agree : ∀ i, 0 < i → i ≤ L.length → termAt x.follower.raftLog.abs i = termAt L i →
    x.follower.raftLog.abs.take i = L.take i
  committed : x.follower.raftLog.abs.take x.follower.raftLog.commitIndex <+: L

/-- What the follower makes of the entries of `L` from `next` on. -/
def offer (x : Exchange) (L : List Entry) (next : ℕ) : Go (Option (RaftLog × ℕ)) :=
  x.follower.raftLog.maybeAppend (next - 1) (termAt L (next - 1)) x.leader.raftLog.commitIndex
    (L.drop (next - 1))

namespace Probes

variable {L : List Entry} {pr : Progress} {x : Exchange}

variable (h : x.Probes L pr)
include h

lemma next_eq : x.next = pr.next := by
  unfold next
  rw [h.lookup]
  rfl

lemma next_pos : 1 ≤ pr.next := h.leading.next_pos _ _ h.lookup

/-- What the follower does with the message. -/
lemma offer_cases : (1 < pr.next ∧ x.offer L pr.next = .ok none) ∨
    ∃ l', x.offer L pr.next = .ok (some (l', L.length)) ∧ L <+: l'.abs := by
  have hle := h.next_le
  have hsum : pr.next - 1 + (L.length - (pr.next - 1)) = L.length := by omega
  have hall : (L.drop (pr.next - 1)).take (L.length - (pr.next - 1)) = L.drop (pr.next - 1) :=
    take_of_length_le (by rw [length_drop])
  have hconsec : Consec 1 L := h.abs ▸ h.leading.log.consec_abs
  have hmerge := RaftLog.WF.maybeAppend_merge (c := x.leader.raftLog.commitIndex) h.agree
    h.committed hconsec hsum.le h.log h.terms
  rw [hall, hsum] at hmerge
  rcases hmerge with ⟨hne, hnone⟩ | ⟨u, hu, -, habs⟩
  · refine .inl ⟨?_, hnone⟩
    -- the dummy before `Next = 1` is in every log
    by_contra hlt
    rw [show pr.next - 1 = 0 by omega] at hne
    exact hne rfl
  · refine .inr ⟨_, hu, ?_⟩
    change L <+: RaftLog.abs { x.follower.raftLog with unstable := u }
    rw [habs, take_length, merge]
    split
    · assumption
    · exact prefix_rfl

/-- A round whose message the follower answers. -/
lemma round_of_answer {p p' : Raft} {answer : Message} {leader : Raft}
    (hfollower : x.follower.handleAppendEntries
      (x.leader.stamp (x.leader.appMsg x.follower.id pr.next)) = .ok (p.send answer))
    (hp : p' = p.send answer) (hleader : x.leader.stepLeader (p.stamp answer) = .ok leader) :
    x.round = .ok (⟨leader, p'⟩, !(p.stamp answer).reject) := by
  have hlast : (p.send answer).msgs.getLast? = some (p.stamp answer) := getLast?_concat
  unfold round
  rw [h.sent]
  dsimp only
  rw [hfollower, ok_bind, hlast]
  dsimp only
  rw [hleader, ok_bind, hp]

/-- The arguments of `maybeAppend`. -/
lemma handleAppendEntries_eq : x.follower.handleAppendEntries
    (x.leader.stamp (x.leader.appMsg x.follower.id pr.next)) =
      x.offer L pr.next >>= fun o => match o with
      | some (raftLog, mLastIndex) => .ok ({ x.follower with raftLog }.send
          { toID := x.leader.id, type := .msgAppResp, logIndex := mLastIndex })
      | none => .ok (x.follower.send
          { toID := x.leader.id, type := .msgAppResp, logIndex := pr.next - 1, reject := true
            rejectHint := x.follower.raftLog.lastIndex }) := by
  rw [← h.abs]
  rfl

/-- The leader finds the progress of the follower. -/
lemma stepLeader_eq {m : Message} (ht : m.type = .msgAppResp)
    (hfrom : m.fromID = x.follower.id) : x.leader.stepLeader m = x.leader.handleAppResp m pr := by
  unfold Raft.stepLeader
  rw [ht, hfrom, h.lookup]

/-- A rejected round. -/
lemma round_rejected (hlt : 1 < pr.next) (hnone : x.offer L pr.next = .ok none) :
    ∃ x' pr', x.round = .ok (x', false) ∧ x'.Probes L pr' ∧ pr'.next < pr.next ∧
      x'.follower.id = x.follower.id := by
  have hle := h.next_le
  set answer : Message := { toID := x.leader.id, type := .msgAppResp, logIndex := pr.next - 1
                            reject := true, rejectHint := x.follower.raftLog.lastIndex }
  set pr' : Progress :=
    { pr with next := min (pr.next - 1) (x.follower.raftLog.lastIndex + 1) } with hpr'
  have hmin : 1 ≤ pr'.next ∧ pr'.next < pr.next := by
    rw [hpr']
    dsimp only
    omega
  have hdecrease : pr.mayDecreaseTo (pr.next - 1) x.follower.raftLog.lastIndex = (pr', true) := by
    unfold Progress.mayDecreaseTo
    rw [if_neg (by omega)]
    dsimp only
    rw [if_neg (by omega)]
  set r' : Raft := { x.leader with prs := x.leader.prs.insert x.follower.id pr' } with hr'
  have hleading : r'.Leading := h.leading.insert hmin.1
  have hlookup : r'.prs.lookup x.follower.id = some pr' := AList.lookup_insert _
  have hfollower := h.handleAppendEntries_eq
  rw [hnone] at hfollower
  have hleader : x.leader.stepLeader (x.follower.stamp answer) =
      .ok (r'.send (r'.appMsg x.follower.id pr'.next)) := by
    rw [h.stepLeader_eq rfl rfl, Raft.handleAppResp]
    rw [show pr.mayDecreaseTo (x.follower.stamp answer).logIndex
      (x.follower.stamp answer).rejectHint = (pr', true) from hdecrease]
    exact hleading.sendAppend_eq hlookup
  refine ⟨_, pr', h.round_of_answer hfollower rfl hleader, ?_, hmin.2, rfl⟩
  exact { h with
    leading := { hleading with }
    lookup := hlookup
    next_le := hmin.2.le.trans hle
    sent := getLast?_concat }

/-- An accepted round. -/
lemma round_accepted {l' : RaftLog} (hsome : x.offer L pr.next = .ok (some (l', L.length))) :
    ∃ x' pr', x.round = .ok (x', true) ∧ x'.leader.raftLog.abs = L ∧
      x'.follower.raftLog = l' ∧ x'.leader.prs.lookup x.follower.id = some pr' ∧
      pr'.matchIndex = L.length := by
  have hmatch := h.match_le
  set answer : Message := { toID := x.leader.id, type := .msgAppResp, logIndex := L.length }
  set p : Raft := { x.follower with raftLog := l' }
  set r' : Raft := { x.leader with
    prs := x.leader.prs.insert x.follower.id (pr.maybeUpdate L.length).1 } with hr'
  have hupdate : (pr.maybeUpdate L.length).1.matchIndex = L.length := by
    unfold Progress.maybeUpdate
    dsimp only
    split <;> omega
  have hleading : r'.Leading := by
    refine h.leading.insert ?_
    unfold Progress.maybeUpdate
    dsimp only
    split <;> omega
  have hlookup : r'.prs.lookup x.follower.id = some (pr.maybeUpdate L.length).1 :=
    AList.lookup_insert _
  have hfollower := h.handleAppendEntries_eq
  rw [hsome] at hfollower
  have hleader : Returns (x.leader.stepLeader (p.stamp answer)) fun r =>
      r.raftLog.abs = L ∧ r.prs = r'.prs := by
    rw [h.stepLeader_eq rfl rfl]
    change Returns (if (pr.maybeUpdate L.length).2 = true then
      r'.maybeCommit >>= fun x => if x.2 then x.1.broadcastAppend else .ok x.1 else .ok r') _
    split
    · have hpos : 0 < r'.prs.keys.length := by
        refine length_pos_of_mem (a := x.follower.id) ?_
        exact AList.mem_keys.1 (AList.lookup_isSome.1 (by rw [hlookup]; rfl))
      refine (Raft.maybeCommit_returns hleading.log hleading.terms hleading.term_pos hpos).bind ?_
      rintro ⟨r₁, committed⟩ ⟨hwf, k, hk⟩
      subst hk
      split
      · refine (Raft.Leading.broadcastAppend_returns (r := { r' with
          raftLog := { r'.raftLog with commitIndex := k } }) ?_).mono fun r hr => ?_
        · exact ⟨hwf, ⟨hleading.terms.dummy, hleading.terms.pos⟩, hleading.term_pos,
            hleading.next_pos⟩
        · rw [hr.1]
          exact ⟨h.abs, hr.2⟩
      · exact .ok ⟨h.abs, rfl⟩
    · exact .ok ⟨h.abs, rfl⟩
  obtain ⟨leader, heq, habs, hprs⟩ := hleader
  refine ⟨_, _, h.round_of_answer hfollower rfl heq, habs, rfl, ?_, hupdate⟩
  rw [hprs]
  exact hlookup

/-- **A round is accepted, or `Next` decreases.** -/
lemma round_cases :
    (∃ x' pr', x.round = .ok (x', false) ∧ x'.Probes L pr' ∧ pr'.next < pr.next ∧
      x'.follower.id = x.follower.id) ∨
    ∃ x' pr', x.round = .ok (x', true) ∧ x'.leader.raftLog.abs = L ∧
      L <+: x'.follower.raftLog.abs ∧ x'.leader.prs.lookup x.follower.id = some pr' ∧
      pr'.matchIndex = L.length := by
  rcases h.offer_cases with ⟨hlt, hnone⟩ | ⟨l', hsome, hpre⟩
  · exact .inl (h.round_rejected hlt hnone)
  · obtain ⟨x', pr', hround, habs, hlog, hlookup, hmatch⟩ := h.round_accepted hsome
    exact .inr ⟨x', pr', hround, habs, hlog ▸ hpre, hlookup, hmatch⟩

end Probes

/-- The exchange ends after at most `Next` rounds. -/
lemma Probes.probe_returns {L : List Entry} {pr : Progress} {x : Exchange} (h : x.Probes L pr)
    {fuel : ℕ} (hfuel : pr.next ≤ fuel) :
    ∃ ns y, probe fuel x = .ok (some (ns, y)) ∧ ns.head? = some pr.next ∧ ns.Pairwise (· > ·) ∧
      y.leader.raftLog.abs = L ∧ L <+: y.follower.raftLog.abs ∧
      ∃ pr', y.leader.prs.lookup x.follower.id = some pr' ∧ pr'.matchIndex = L.length := by
  induction fuel generalizing x pr with
  | zero =>
    have := h.next_pos
    omega
  | succ fuel ih =>
    unfold probe
    rcases h.round_cases with ⟨x', pr', hround, hprobes, hlt, hid⟩ |
      ⟨x', pr', hround, habs, hpre, hlookup, hmatch⟩
    · obtain ⟨ns, y, hrest, hhead, hsorted, habs, hpre, hlookup⟩ := ih hprobes (by omega)
      rw [hid] at hlookup
      refine ⟨pr.next :: ns, y, ?_, rfl, ?_, habs, hpre, hlookup⟩
      · rw [hround, ok_bind]
        dsimp only
        rw [hrest, h.next_eq]
        rfl
      · -- the list of the other rounds starts with the next, smaller `Next`
        obtain ⟨n, ns, rfl⟩ := exists_cons_of_ne_nil (l := ns) (by
          rintro rfl
          cases hhead)
        cases hhead
        refine pairwise_cons.2 ⟨fun k hk => ?_, hsorted⟩
        rcases mem_cons.1 hk with rfl | hk
        · exact hlt
        · exact (rel_of_pairwise_cons hsorted hk).trans hlt
    · refine ⟨[pr.next], x', ?_, rfl, pairwise_singleton _ _, habs, hpre, pr', hlookup, hmatch⟩
      rw [hround, ok_bind]
      dsimp only
      rw [if_pos rfl, h.next_eq]

end Exchange

/-- **Replication ends.** A leader with log `L` and a follower whose log matches it, with `Next`
anywhere up to the end of `L`: the leader's message is sent, the exchange does not panic and ends
after at most `Next` rounds, `Next` decreases with every rejection, and then the follower has `L`
and the leader knows it.

**Proof sketch.** Induction on the rounds. A rejected message had a previous entry, so `Next` was
greater than `1` and the next one is smaller and still positive. An accepted one merges the rest of
`L` into a log that agrees with `L` up to there. -/
theorem probing_converges (r p : Raft) (pr : Progress) (hr : r.Leading)
    (hlog : p.raftLog.WF) (hterms : p.raftLog.TermsOk) (hpr : r.prs.lookup p.id = some pr)
    (hnext : pr.next ≤ r.raftLog.abs.length + 1) (hmatch : pr.matchIndex ≤ r.raftLog.abs.length)
    (hagree : ∀ i, 1 ≤ i → i ≤ p.raftLog.abs.length → i ≤ r.raftLog.abs.length →
      termAt p.raftLog.abs i = termAt r.raftLog.abs i →
      p.raftLog.abs.take i = r.raftLog.abs.take i)
    (hcommit : p.raftLog.abs.take p.raftLog.commitIndex <+: r.raftLog.abs)
    (fuel : ℕ) (hfuel : pr.next ≤ fuel) :
    ∃ r₀ ns y, r.sendAppend p.id = .ok r₀ ∧ Exchange.probe fuel ⟨r₀, p⟩ = .ok (some (ns, y)) ∧
      ns.head? = some pr.next ∧ ns.Pairwise (· > ·) ∧
      y.leader.raftLog.abs = r.raftLog.abs ∧
      y.follower.raftLog.abs.take r.raftLog.abs.length = r.raftLog.abs ∧
      ∃ pr', y.leader.prs.lookup p.id = some pr' ∧ pr'.matchIndex = r.raftLog.lastIndex := by
  have hsend := hr.sendAppend_eq hpr
  have hprobes : Exchange.Probes r.raftLog.abs pr ⟨r.send (r.appMsg p.id pr.next), p⟩ := {
    leading := ⟨hr.log, hr.terms, hr.term_pos, hr.next_pos⟩
    abs := rfl
    lookup := hpr
    next_le := hnext
    match_le := hmatch
    sent := getLast?_concat
    log := hlog
    terms := hterms
    agree := by
      intro i hi hle hterm
      have hpos : 0 < termAt r.raftLog.abs i := by
        obtain ⟨e, he, heq⟩ := exists_getElem?_of_le hi hle
        rw [heq]
        exact hr.terms.pos e (mem_of_getElem? he)
      exact hagree i hi (le_length_of_termAt_pos (hterm ▸ hpos)) hle hterm
    committed := hcommit }
  obtain ⟨ns, y, hprobe, hhead, hsorted, habs, hpre, hlookup⟩ := hprobes.probe_returns hfuel
  rw [← hr.log.lastIndex_eq] at hlookup
  exact ⟨_, ns, y, hsend, hprobe, hhead, hsorted, habs, (prefix_iff_eq_take.1 hpre).symm, hlookup⟩

/-- A leader with three entries that has not heard of its follower. -/
def probingLeader : Raft where
  id := 1
  term := 3
  state := .leader
  raftLog := {
    storage := MemoryStorage.new
    unstable := {
      entries := [{ term := 1, index := 1 }, { term := 3, index := 2 }, { term := 3, index := 3 }]
      offset := 1 }
    commitIndex := 0
    applyIndex := 0 }
  prs := ((∅ : AList fun _ : ℕ => Progress).insert 1 { next := 4, matchIndex := 3 }).insert 2
    { next := 4 }
  rand := fun _ => 0

/-- A follower whose second entry is of another leader. -/
def divergedFollower : Raft where
  id := 2
  term := 3
  raftLog := {
    storage := MemoryStorage.new
    unstable := { entries := [{ term := 1, index := 1 }, { term := 2, index := 2 }], offset := 1 }
    commitIndex := 1
    applyIndex := 0 }
  rand := fun _ => 0

/-- The leader goes back to the entry before the conflict, in three rounds. -/
theorem probing_converges_diverged : ∃ r₀ ns y,
    probingLeader.sendAppend 2 = .ok r₀ ∧
    Exchange.probe 4 ⟨r₀, divergedFollower⟩ = .ok (some (ns, y)) ∧
    ns.head? = some 4 ∧ ns.Pairwise (· > ·) ∧ y.leader.raftLog.abs = probingLeader.raftLog.abs ∧
    y.follower.raftLog.abs.take 3 = probingLeader.raftLog.abs ∧
    ∃ pr, y.leader.prs.lookup 2 = some pr ∧ pr.matchIndex = probingLeader.raftLog.lastIndex := by
  refine probing_converges probingLeader divergedFollower { next := 4 } ⟨?_, ?_, by decide, ?_⟩
    ?_ ?_ rfl (by decide) (by decide) ?_ ?_ 4 le_rfl
  · exact { stored := .of_map rfl, offset_pos := le_rfl, offset_le := le_rfl,
            unstable := .of_map rfl, offset_eq := by decide, apply_le := le_rfl,
            commit_le := by decide }
  · refine ⟨fun e he => ?_, by decide⟩
    cases he
    rfl
  · intro j pr hj
    rcases eq_or_ne j 2 with rfl | h2
    · cases hj
      decide
    · rcases eq_or_ne j 1 with rfl | h1
      · cases hj
        decide
      · unfold probingLeader at hj
        rw [AList.lookup_insert_ne h2, AList.lookup_insert_ne h1] at hj
        cases hj
  · exact { stored := .of_map rfl, offset_pos := le_rfl, offset_le := le_rfl,
            unstable := .of_map rfl, offset_eq := by decide, apply_le := by decide,
            commit_le := by decide }
  · refine ⟨fun e he => ?_, by decide⟩
    cases he
    rfl
  · intro i hi hle hle' hterm
    have hle : i ≤ 2 := hle
    obtain rfl | rfl : i = 1 ∨ i = 2 := by omega
    · rfl
    · cases hterm
  · exact ⟨[{ term := 3, index := 2 }, { term := 3, index := 3 }], rfl⟩

end Yukino.Replica
