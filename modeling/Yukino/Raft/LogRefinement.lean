import Yukino.Raft.Simulation

set_option autoImplicit false

/-!
# The log of a node as one list

The two parts of a log, the storage and the unstable entries, represent one list of entries. The
methods of the log should be those of this list: `term`, `slice` and `lastIndex` read it,
`maybeAppend` replaces it from the first conflict on, and an `Advance` does not change it.

Reading is always right. `maybeAppend` takes an index beyond the end for one with term `0`, and
panics at a conflict with a committed entry. An `Advance` finds the entries that it has saved in the
log by the index and the term of the last one. This is right as long as they identify the entries
before it, as they do without restarts and membership changes. With two leaders in one term the log
falls back to the entries that were handed out.

## Main definitions

* `RaftLog.Has`, `RaftLog.splice` — the operations of the list.
* `RaftLog.ReadsAs`, `RaftLog.AppendsAs`, `Node.AdvanceKeeps` — the methods are those of the list.
* `RaftLog.appendable`, `Node.readyAgrees` — when they are.

## Main results

* `ClusterConfig.exec_termed` — in every run all entries have a term.
* `refines_abs_iff` — exactly when the methods are those of the list.
* `FixedCluster.readyAgrees` — without restarts and membership changes, an `Advance` never changes
  the list.
* `advance_restores_overwritten` — a run after which it does.
-/

namespace Yukino.Replica

open Consensus Outcome List Bool

/-! ## The operations of the list -/

namespace RaftLog

/-- The list has an entry with this index and term. Index `0` is that of the dummy. -/
def Has (L : List Entry) (i t : ℕ) : Prop := i ≤ L.length ∧ termAt L i = t

instance (L : List Entry) (i t : ℕ) : Decidable (Has L i t) :=
  inferInstanceAs (Decidable (_ ∧ _))

/-- The list with `ents` after index `prev`: it stays as it is when it has all of them, and is
replaced from the first one on that it does not have. -/
def splice (L : List Entry) (prev : ℕ) (ents : List Entry) : List Entry :=
  match ents.findIdx? fun e => ¬ Has L e.index e.term with
  | none => L
  | some k => L.take (prev + k) ++ ents.drop k

/-- The reading methods read the list. -/
structure ReadsAs (l : RaftLog) (L : List Entry) : Prop where
  lastIndex : l.lastIndex = L.length
  term : ∀ i ≤ L.length, l.term i = .ok (termAt L i)
  slice : ∀ lo hi, 1 ≤ lo → lo ≤ hi → hi ≤ L.length + 1 →
    l.slice lo hi = .ok ((L.drop (lo - 1)).take (hi - lo))

/-- `maybeAppend` rejects (and leaves the log as it is) if and only if the list does not have the
previous entry, and otherwise splices the entries in. -/
def AppendsAs (l : RaftLog) (prev prevTerm commit : ℕ) (ents : List Entry) : Prop :=
  if Has l.abs prev prevTerm then
    ∃ l', l.maybeAppend prev prevTerm commit ents = .ok (some (l', prev + ents.length)) ∧
      l'.abs = splice l.abs prev ents
  else l.maybeAppend prev prevTerm commit ents = .ok none

/-- The list has all committed ones of the entries if it has the previous one, and the previous
one is not said to be beyond the end with term `0`. -/
def appendable (l : RaftLog) (prev prevTerm : ℕ) (ents : List Entry) : Bool :=
  if Has l.abs prev prevTerm then
    ents.all fun e => l.commitIndex < e.index ∨ Has l.abs e.index e.term
  else ¬ (prevTerm = 0 ∧ l.abs.length < prev)

variable {l : RaftLog} {p t c : ℕ} {es : List Entry}

/-- The committed indices of a log with terms. -/
lemma matchTerm_iff_has (h : l.WF) (ht : l.TermsOk) {i t : ℕ} (hpos : t ≠ 0) :
    l.matchTerm i t = true ↔ Has l.abs i t := by
  rw [h.matchTerm_eq ht, decide_eq_true_eq]
  refine ⟨fun heq => ⟨le_length_of_termAt_pos ?_, heq⟩, fun hhas => hhas.2⟩
  rw [heq]
  exact Nat.pos_of_ne_zero hpos

lemma readsAs (h : l.WF) (ht : l.TermsOk) : l.ReadsAs l.abs where
  lastIndex := h.lastIndex_eq
  term i _ := h.term_eq ht i
  slice _ _ hlo hlh hhi := h.slice_eq hlo hlh hhi

/-- The list has the entries before the first conflict, so it reaches up to it. -/
lemma le_length_of_before {k : ℕ} (hes : Consec (p + 1) es) (hprev : p ≤ l.abs.length)
    (hk : k ≤ es.length)
    (hbefore : ∀ k' e', k' < k → es[k']? = some e' → Has l.abs e'.index e'.term) :
    p + k ≤ l.abs.length := by
  rcases Nat.eq_zero_or_pos k with rfl | hpos
  · exact hprev
  · have hget : es[k - 1]? = some es[k - 1] := getElem?_eq_getElem (by omega)
    have hhas := (hbefore (k - 1) _ (by omega) hget).1
    have hidx := hes _ _ hget
    omega

/-- `maybeAppend` when the list has the previous entry and all others. -/
lemma maybeAppend_of_all (h : l.WF) (hes : Consec (p + 1) es) (hprev : p ≤ l.abs.length)
    (hmatch : l.matchTerm p t = true) (heq : l.appendConflict p es = .ok l)
    (hall : ∀ e ∈ es, Has l.abs e.index e.term) :
    ∃ l', l.maybeAppend p t c es = .ok (some (l', p + es.length)) ∧
      l'.abs = splice l.abs p es := by
  have hlen : p + es.length ≤ l.abs.length :=
    le_length_of_before hes hprev le_rfl fun k' e' _ he' => hall e' (mem_of_getElem? he')
  have hsplice : splice l.abs p es = l.abs := by
    unfold splice
    rw [findIdx?_eq_none_iff.2 fun e he => by simp [hall e he]]
  refine ⟨{ l with commitIndex := max l.commitIndex (min c (p + es.length)) }, ?_, ?_⟩
  · unfold maybeAppend
    rw [if_pos hmatch, heq, ok_bind, h.commitTo_eq ((min_le_right _ _).trans hlen)]
    rfl
  · rw [hsplice]
    rfl

/-- `maybeAppend` when the first entry that the list does not have is not committed. -/
lemma maybeAppend_of_conflict (h : l.WF) (hes : Consec (p + 1) es) (hprev : p ≤ l.abs.length)
    (hmatch : l.matchTerm p t = true) {k : ℕ} {e : Entry} (hk : es[k]? = some e)
    (heq : l.appendConflict p es = l.append (es.drop k)) (hcommit : l.commitIndex < p + 1 + k)
    (hnot : ¬ Has l.abs e.index e.term)
    (hbefore : ∀ k' e', k' < k → es[k']? = some e' → Has l.abs e'.index e'.term) :
    ∃ l', l.maybeAppend p t c es = .ok (some (l', p + es.length)) ∧
      l'.abs = splice l.abs p es := by
  obtain ⟨hlt, hget⟩ := List.getElem?_eq_some_iff.1 hk
  have hlen := le_length_of_before hes hprev hlt.le hbefore
  have hne : es.drop k ≠ [] := by
    rw [Ne, drop_eq_nil_iff]
    omega
  have hfirst : es.findIdx? (fun e => ¬ Has l.abs e.index e.term) = some k := by
    rw [findIdx?_eq_some_iff_getElem]
    refine ⟨hlt, ?_, fun j hj => ?_⟩
    · rw [hget]
      exact decide_eq_true hnot
    · have := hbefore j _ hj (getElem?_eq_getElem (by omega))
      simpa using this
  have hsplice : splice l.abs p es = l.abs.take (p + k) ++ es.drop k := by
    unfold splice
    rw [hfirst]
  obtain ⟨u, hu, hwf, habs, -⟩ := h.append_ok hne (hes.drop k) hcommit (by omega)
  rw [show p + 1 + k - 1 = p + k by omega] at habs
  have hle : min c (p + es.length) ≤ (abs { l with unstable := u }).length := by
    rw [habs, length_append, length_take, length_drop]
    omega
  refine ⟨{ l with unstable := u, commitIndex := max l.commitIndex (min c (p + es.length)) },
    ?_, ?_⟩
  · unfold maybeAppend
    rw [if_pos hmatch, heq, hu, ok_bind, hwf.commitTo_eq hle]
    rfl
  · rw [hsplice]
    exact habs

/-- **When `maybeAppend` is right.**

**Proof sketch.** If the list has the previous entry, the switch does nothing when the list has all
entries, panics when the first one that it does not have is committed, and otherwise cuts the list
there. If not, `matchTerm` is wrong only about term `0` beyond the end. -/
lemma appendsAs_iff (h : l.WF) (ht : l.TermsOk) (hes : Consec (p + 1) es)
    (hpos : ∀ e ∈ es, e.term ≠ 0) :
    l.AppendsAs p t c es ↔ l.appendable p t es = true := by
  unfold AppendsAs appendable
  by_cases hhas : Has l.abs p t
  · have hmatch : l.matchTerm p t = true := by
      rw [h.matchTerm_eq ht]
      exact decide_eq_true hhas.2
    have hmatches : ∀ e ∈ es, (l.matchTerm e.index e.term = true ↔ Has l.abs e.index e.term) :=
      fun e he => matchTerm_iff_has h ht (hpos e he)
    rw [if_pos hhas, if_pos hhas, all_eq_true]
    rcases WF.appendConflict_cases l hes with ⟨hall, heq⟩ | ⟨k, e, hk, hno, hbefore, heq⟩
    · have hall' : ∀ e ∈ es, Has l.abs e.index e.term := fun e he => (hmatches e he).1 (hall e he)
      exact iff_of_true (maybeAppend_of_all h hes hhas.1 hmatch heq hall')
        fun e he => decide_eq_true (.inr (hall' e he))
    · have hmem : e ∈ es := mem_of_getElem? hk
      have hidx : e.index = p + 1 + k := hes k e hk
      have hnot : ¬ Has l.abs e.index e.term := fun hh => hno ((hmatches e hmem).2 hh)
      have hbefore' : ∀ k' e', k' < k → es[k']? = some e' → Has l.abs e'.index e'.term :=
        fun k' e' hk' he' => (hmatches e' (mem_of_getElem? he')).1 (hbefore k' e' hk' he')
      by_cases hcommit : p + 1 + k ≤ l.commitIndex
      · -- the conflict is with a committed entry
        refine iff_of_false ?_ ?_
        · rintro ⟨l', hl', -⟩
          unfold maybeAppend at hl'
          rw [if_pos hmatch, heq, if_pos hcommit] at hl'
          cases hl'
        · intro hall
          rcases of_decide_eq_true (hall e hmem) with hlate | hh
          · omega
          · exact hnot hh
      · rw [if_neg hcommit] at heq
        refine iff_of_true (maybeAppend_of_conflict h hes hhas.1 hmatch hk heq (by omega) hnot
          hbefore') fun x hx => ?_
        obtain ⟨j, hj⟩ := mem_iff_getElem?.mp hx
        have hxi := hes j x hj
        rcases Nat.lt_or_ge j k with hjk | hjk
        · exact decide_eq_true (.inr (hbefore' j x hjk hj))
        · exact decide_eq_true (.inl (by omega))
  · rw [if_neg hhas, if_neg hhas]
    have hbeyond : l.matchTerm p t = true ↔ t = 0 ∧ l.abs.length < p := by
      rw [h.matchTerm_eq ht, decide_eq_true_eq]
      constructor
      · intro hterm
        have hlen : l.abs.length < p := by
          by_contra hle
          exact hhas ⟨Nat.not_lt.1 hle, hterm⟩
        rw [← hterm, termAt_pos (by omega), getElem?_eq_none (by omega)]
        exact ⟨rfl, hlen⟩
      · rintro ⟨rfl, hlen⟩
        rw [termAt_pos (by omega), getElem?_eq_none (by omega)]
        rfl
    rw [decide_eq_true_eq, ← hbeyond, maybeAppend]
    by_cases hmatch : l.matchTerm p t = true
    · rw [if_pos hmatch]
      refine iff_of_false ?_ (not_not.2 hmatch)
      intro hnone
      obtain ⟨l₁, -, h₁⟩ := bind_eq_ok.1 hnone
      obtain ⟨l₂, -, h₂⟩ := bind_eq_ok.1 h₁
      cases h₂
    · rw [if_neg hmatch]
      exact iff_of_true rfl hmatch

end RaftLog

/-! ## All entries have a term -/

/-- The entries have a term. -/
def Termful (es : List Entry) : Prop := ∀ e ∈ es, e.term ≠ 0

/-- The entries of a `MsgApp` have a term. -/
def Message.Termful (m : Message) : Prop := m.type = .msgApp → Yukino.Replica.Termful m.entries

namespace Raft

variable {m : Message} {r r' : Raft}

/-- The entries of the log and of the messages have a term. -/
structure Termed (r : Raft) : Prop where
  log : Termful r.raftLog.abs
  msgs : ∀ m ∈ r.msgs, m.Termful

/-- The entries that a leader appends have its term. -/
lemma termful_stampEntries (hterm : 1 ≤ r.term) (es : List Entry) :
    Termful (r.stampEntries es) := by
  intro e he
  obtain ⟨k, hk, rfl⟩ := mem_mapIdx.1 he
  exact Nat.one_le_iff_ne_zero.1 hterm

/-- The log has entries with a term if those that come with the message have one. -/
lemma LogChange.termful {l : RaftLog} (hc : LogChange m r l) (h : Termful r.raftLog.abs)
    (hwf : r.LogWF) (hm : m.WF) (hmt : m.Termful) : Termful l.abs := by
  cases hc with
  | same hl =>
    rw [hl]
    exact h
  | append hne hl =>
    obtain ⟨-, -, hsub⟩ := hwf.log.append_grows hne (consec_stampEntries hwf.log _) (by omega) l hl
    exact fun e he => (mem_append.1 (hsub he)).elim (h e) (termful_stampEntries hwf.term_pos _ e)
  | commit hl =>
    rw [(RaftLog.WF.maybeCommit_ensures _ _ _ _ hl).1]
    exact h
  | accept ht hl =>
    obtain ⟨-, -, hsub⟩ := hwf.log.maybeAppend_ensures (hm.entries ht) _ hl l _ rfl
    exact fun e he => (mem_append.1 (hsub he)).elim (h e) (hmt ht e)
  | learn hl =>
    rw [(RaftLog.WF.commitTo_ensures _ _ _ hl).1]
    exact h

/-- **An action only brings entries with a term into the log.** -/
lemma Action.termed (ha : Action m r r') (h : r.Termed) (hwf : r.LogWF) (hm : m.WF)
    (hmt : m.Termful) : r'.Termed := by
  obtain ⟨hlog, -, ms, hms, hsays⟩ := ha.effect
  refine ⟨hlog.termful h.log hwf hm hmt, fun x hx => ?_⟩
  rw [hms] at hx
  rcases mem_append.1 hx with hx | hx
  · exact h.msgs x hx
  · obtain ⟨y, hy, rfl⟩ := hsays x hx
    intro ht
    rw [stamp_type] at ht
    obtain ⟨k, hk⟩ := hy.exists_entries hwf.log ht
    rw [stamp_entries, hk]
    exact fun e he => h.log e (mem_of_mem_drop (mem_of_mem_take he))

lemma Actions.termed (ha : Actions m r r') (h : r.Termed) (hwf : r.LogWF) (hm : m.WF)
    (hmt : m.Termful) : r'.Termed :=
  (ha.invariant (P := fun r' => r'.Termed ∧ r'.LogWF)
    (fun _ _ hlast ih => ⟨hlast.termed ih.1 ih.2 hm hmt, (hlast.logWF ih.2 hm).1⟩)
    ⟨h, hwf⟩).1

end Raft

/-- The entries of the log, of the storage and of an outstanding `Ready` have a term, except for
the dummy. -/
structure Node.Termed (n : Node) : Prop where
  raft : n.raft.Termed
  dummy : ∀ e, n.raft.raftLog.storage.entries[0]? = some e → e.term = 0
  stored : Termful n.raft.raftLog.storage.entries.tail
  ready : n.hasPrevLastUnstableI = true → Termful n.rd.entries

namespace Node.Termed

variable {n : Node}

section

variable (h : n.Termed)
include h

lemma termsOk : n.raft.raftLog.TermsOk :=
  ⟨h.dummy, fun e he => Nat.pos_of_ne_zero (h.raft.log e he)⟩

/-- The storage and the outstanding `Ready` stay as they are. -/
lemma frame (hwf : n.WF) {r : Raft} {rd : Ready} (hr : r.Termed)
    (hst : r.raftLog.storage = n.raft.raftLog.storage)
    (hrd : n.advanceChan = true → rd = n.rd) : Termed { n with rd := rd, raft := r } where
  raft := hr
  dummy := by
    rw [hst]
    exact h.dummy
  stored := by
    rw [hst]
    exact h.stored
  ready hprev := by
    rw [hrd (hwf.advanceChan_of_prev hprev)]
    exact h.ready hprev

lemma takeReady (hwf : n.WF) {rd : Ready}
    (hrd : newReady n.raft n.prevSoft n.prevHard = .ok rd) :
    Termed { n with rd := rd }.takeReady where
  raft := ⟨h.raft.log, fun m hm => absurd hm not_mem_nil⟩
  dummy := h.dummy
  stored := h.stored
  ready _ := by
    rw [hwf.newReady_eq] at hrd
    cases hrd
    exact fun e he => h.raft.log e (mem_append_right _ he)

/-- The log at the time of a `Ready` has terms. -/
lemma readyLog (hprev : n.hasPrevLastUnstableI = true) : Termful n.readyLog := by
  intro e he
  rcases mem_append.1 he with he | he
  · exact h.stored e (mem_of_mem_take he)
  · exact h.ready hprev e he

/-- The storage after an `Advance`. -/
lemma stored_of_advance (hwf : n.WF) {n' : Node} (hchan : n.advanceChan = true)
    (ha : n.takeAdvance = .ok n') : Termful n'.raft.raftLog.storage.entries.tail := by
  by_cases hprev : n.hasPrevLastUnstableI = true
  · obtain ⟨st, e, hst, -, -, -, -, heq⟩ := hwf.takeAdvance_saves hprev
    rw [heq] at ha
    cases ha
    intro x hx
    have hx' : x ∈ (n.raft.raftLog.storage.entries.take n.readyStart ++ n.rd.entries).tail := by
      rw [← hst]
      exact hx
    rw [tail_append] at hx'
    split at hx'
    · exact h.ready hprev x (mem_of_mem_tail hx')
    · rcases mem_append.1 hx' with hx' | hx'
      · refine h.stored x ?_
        rw [← drop_one, drop_take, drop_one] at hx'
        exact mem_of_mem_take hx'
      · exact h.ready hprev x hx'
  · obtain ⟨st, hsave, hst, -⟩ := hwf.saveHardState_eq hchan
    rw [not_eq_true] at hprev
    unfold takeAdvance saveEntries at ha
    rw [hsave, hprev] at ha
    cases ha
    rw [hst]
    exact h.stored

lemma advance (hwf : n.WF) {n' : Node} (hchan : n.advanceChan = true)
    (ha : n.takeAdvance = .ok n') : n'.Termed := by
  have hstored := h.stored_of_advance hwf hchan ha
  obtain ⟨l', hl', heq⟩ := hwf.takeAdvance_eq hchan
  rw [heq] at ha
  cases ha
  refine ⟨⟨?_, h.raft.msgs⟩, ?_, hstored, fun hf => (nomatch hf)⟩
  · intro e he
    rcases hl'.abs with habs | ⟨hprev, -, -, habs⟩
    · rw [habs] at he
      exact h.raft.log e he
    · rw [habs] at he
      rcases mem_append.1 he with he | he
      · exact h.readyLog hprev e he
      · exact h.raft.log e (mem_of_mem_drop he)
  · intro e he
    rw [hl'.dummy] at he
    exact h.dummy e he

end

lemma of_started {conf : Config} {peers : List ℕ} (h : Started conf peers n)
    (hst : Consec 0 conf.storage.entries) (hdummy : ∀ e, conf.storage.entries[0]? = some e →
      e.term = 0) (hstored : Termful conf.storage.entries.tail) : n.Termed := by
  obtain ⟨-, hlog⟩ := started_log h hst
  refine ⟨⟨fun e he => ?_, by simp [h.msgs]⟩, ?_, ?_, fun hprev => ?_⟩
  · rw [hlog] at he
    rcases mem_append.1 he with he | he
    · exact hstored e (mem_of_mem_take he)
    · exact absurd he not_mem_nil
  · rw [hlog]
    exact hdummy
  · rw [hlog]
    exact hstored
  · rw [h.hasPrevLastUnstableI] at hprev
    cases hprev

end Node.Termed

/-- All entries of a cluster have a term. -/
structure Cluster.Termed (s : Cluster) : Prop where
  nodes : ∀ i n, s.nodes.lookup i = some n → n.Termed
  net : ∀ m ∈ s.net, m.Termful

namespace ClusterConfig

variable {c : ClusterConfig} {s s' : Cluster} {ev : Event}

lemma Change.termed (hc : c.Change s ev s') (hwf : s.WF) (h : s.Termed) : s'.Termed := by
  refine ⟨?_, hc.forall_net h.net fun i n hn => (h.nodes i n hn).raft.msgs⟩
  cases hc with
  | skip => exact h.nodes
  | idle i n rd hn hrd =>
    have hnode := h.nodes i n hn
    exact Cluster.forall_insert h.nodes (hnode.frame (hwf.nodes i n hn) hnode.raft rfl hrd)
  | react i n m rd r hn hrd hm ha =>
    have hnode := h.nodes i n hn
    have hraft := (hwf.nodes i n hn).raft
    have hgiven := given_of_event hm
    have hmwf := wf_of_given hwf hgiven
    have hmt : m.Termful := by
      rcases hgiven with hlocal | ⟨hm, -⟩
      · exact fun ht => by simp [ht, MessageType.isLocal] at hlocal
      · exact h.net m hm
    exact Cluster.forall_insert h.nodes (hnode.frame (hwf.nodes i n hn)
      (ha.termed hnode.raft hraft hmwf hmt) (ha.logWF hraft hmwf).2.storage hrd)
  | ready i n rd hn hidle hrd =>
    exact Cluster.forall_insert h.nodes ((h.nodes i n hn).takeReady (hwf.nodes i n hn) hrd)
  | advance i n n' hn hout ha =>
    exact Cluster.forall_insert h.nodes ((h.nodes i n hn).advance (hwf.nodes i n hn) hout ha)
  | conf i index cc n rd _ hn hrd =>
    have hnode := h.nodes i n hn
    have hf := n.raft.applyConfChange_frame cc
    exact Cluster.forall_insert h.nodes (hnode.frame (hwf.nodes i n hn)
      ⟨hf.raftLog ▸ hnode.raft.log, hf.msgs ▸ hnode.raft.msgs⟩ (by rw [hf.raftLog]) hrd)
  | restart i applied rand n n' _ hn _ hst =>
    have hnode := h.nodes i n hn
    exact Cluster.forall_insert h.nodes (.of_started hst (hwf.nodes i n hn).raft.log.stored
      hnode.dummy hnode.stored)

lemma Begun.termed (h : c.Begun s) : s.Termed where
  nodes i n hn := by
    refine .of_started (h.nodes i n hn).2 (c.consec_fresh i) (fun e he => ?_) (fun e he => ?_)
    · cases he
      rfl
    · simp [ClusterConfig.config, MemoryStorage.new] at he
  net := by simp [h.net]

/-- **In every run all entries have a term**, whatever is restarted and whichever membership
changes are applied. -/
theorem exec_termed (c : ClusterConfig) (evs : List Event) :
    Ensures (c.exec evs) fun s => s.WF ∧ s.Termed :=
  (exec_invariant (P := fun s => s.WF ∧ s.Termed) (fun _ h => ⟨h.wf, h.termed⟩)
    fun _ _ _ _ _ hc h => ⟨hc.wf h.1, hc.termed h.1 h.2⟩).mono fun _ h => h.2

end ClusterConfig

/-! ## `Advance` -/

namespace Node

/-- An `Advance` does not change the list that the log represents. -/
def AdvanceKeeps (n : Node) : Prop :=
  n.advanceChan = true → ∃ n', n.takeAdvance = .ok n' ∧ n'.raft.raftLog.abs = n.raft.raftLog.abs

/-- If the log has the last entry of the outstanding `Ready`, it is the log of the `Ready` up to
there. -/
def readyAgrees (n : Node) : Bool :=
  !n.hasPrevLastUnstableI ||
    decide (RaftLog.Has n.raft.raftLog.abs n.prevLastUnstableI n.prevLastUnstableT →
      n.raft.raftLog.abs.take n.prevLastUnstableI = n.readyLog)

variable {n : Node}

/-- The last entry of a `Ready` is at the end of its log. -/
lemma WF.length_readyLog (h : n.WF) (hprev : n.hasPrevLastUnstableI = true) :
    n.readyLog.length = n.prevLastUnstableI := by
  have hout := h.outstanding hprev
  obtain ⟨e, he, hI, -⟩ := hout.last
  have hidx := hout.consec.getLast? he
  have hle := hout.start_le
  have hge := hout.start_ge
  have hpos := h.raft.log.offset_pos
  unfold readyLog
  rw [length_append, length_take, length_tail]
  omega

/-- The log after an `Advance` starts with that of the `Ready` if it has the last entry of it. -/
lemma WF.takeAdvance_of_has (h : n.WF) (hprev : n.hasPrevLastUnstableI = true)
    (hhas : RaftLog.Has n.raft.raftLog.abs n.prevLastUnstableI n.prevLastUnstableT) :
    ∃ n', n.takeAdvance = .ok n' ∧ n'.raft.raftLog.abs =
      n.readyLog ++ n.raft.raftLog.abs.drop n.prevLastUnstableI := by
  obtain ⟨st, e, hst, -, he, hI, hT, heq⟩ := h.takeAdvance_saves hprev
  have hout := h.outstanding hprev
  have hwf := h.raft.log.setStorage (a := n.prevHard.commitIndex) rfl h.commit_le
  have habs := RaftLog.WF.abs_setStorage (l := n.raft.raftLog) rfl n.prevHard.commitIndex
  rw [hI, hT] at hhas
  obtain ⟨-, -, hnew⟩ := hwf.saved_stableTo_of_term hout.consec hout.start_ge hout.start_le hst he
    (by exact hhas.1) (by exact hhas.2)
  refine ⟨_, heq, ?_⟩
  rw [hI]
  exact hnew

/-- **When an `Advance` keeps the log.**

**Proof sketch.** If the log does not have the last entry of the `Ready`, `stableTo` does nothing.
If it does, the log of the `Ready` replaces the beginning of the log. -/
lemma WF.advanceKeeps_iff (h : n.WF) : n.AdvanceKeeps ↔ n.readyAgrees = true := by
  unfold AdvanceKeeps readyAgrees
  rw [or_eq_true, not_eq_true', decide_eq_true_eq]
  by_cases hprev : n.hasPrevLastUnstableI = true
  · rw [or_iff_right (by rw [hprev]; exact Bool.noConfusion)]
    have hchan := h.advanceChan_of_prev hprev
    have hlen := h.length_readyLog hprev
    by_cases hhas : RaftLog.Has n.raft.raftLog.abs n.prevLastUnstableI n.prevLastUnstableT
    · obtain ⟨n', hn', habs⟩ := h.takeAdvance_of_has hprev hhas
      constructor
      · intro hkeeps _
        obtain ⟨n₁, hn₁, hsame⟩ := hkeeps hchan
        rw [hn'] at hn₁
        cases hn₁
        rw [← hsame, habs, ← hlen, take_left]
      · intro hagrees _
        refine ⟨n', hn', ?_⟩
        rw [habs, ← hagrees hhas, take_append_drop]
    · refine iff_of_true (fun _ => ?_) fun hh => absurd hh hhas
      obtain ⟨l', hl', heq⟩ := h.takeAdvance_eq hchan
      refine ⟨_, heq, ?_⟩
      rcases hl'.abs with habs | ⟨-, hle, hterm, -⟩
      · exact habs
      · rw [hlen] at hle hterm
        exact absurd ⟨hle, hterm⟩ hhas
  · rw [not_eq_true] at hprev
    refine iff_of_true (fun hchan => ?_) (.inl hprev)
    obtain ⟨l', hl', heq⟩ := h.takeAdvance_eq hchan
    refine ⟨_, heq, ?_⟩
    rcases hl'.abs with habs | ⟨hout, -⟩
    · exact habs
    · rw [hprev] at hout
      cases hout

end Node

/-- **Exactly when the log is that of the list.** In every state of every run, with any membership
changes and restarts, the reading methods of every node read its list; `maybeAppend` with any
previous entry and any entries after it rejects or splices as it should if and only if the list has
all committed ones of the entries, or does not have the previous one and it is not an entry of term
`0` beyond the end; and an `Advance` keeps the list if and only if it agrees with the log of the
outstanding `Ready`. -/
theorem refines_abs_iff (c : ClusterConfig) (evs : List Event) (s : Cluster)
    (hs : c.exec evs = .ok s) (i : ℕ) (n : Node) (hn : s.nodes.lookup i = some n) :
    n.raft.raftLog.ReadsAs n.raft.raftLog.abs ∧
    (∀ prev prevTerm commit ents, Consec (prev + 1) ents → Termful ents →
      (n.raft.raftLog.AppendsAs prev prevTerm commit ents ↔
        n.raft.raftLog.appendable prev prevTerm ents = true)) ∧
    (n.AdvanceKeeps ↔ n.readyAgrees = true) := by
  obtain ⟨hwf, htermed⟩ := c.exec_termed evs s hs
  have hnode := hwf.nodes i n hn
  have hterms := (htermed.nodes i n hn).termsOk
  exact ⟨RaftLog.readsAs hnode.raft.log hterms,
    fun _ _ _ _ hes hpos => RaftLog.appendsAs_iff hnode.raft.log hterms hes hpos,
    hnode.advanceKeeps_iff⟩

/-- **Without restarts and membership changes** the log always agrees with that of the outstanding
`Ready`, so no `Advance` changes it. -/
theorem FixedCluster.readyAgrees (c : FixedCluster) (evs : List Event)
    (hfixed : ∀ ev ∈ evs, ev.isFixed = true) (s : Cluster) (hs : c.exec evs = .ok s) (i : ℕ)
    (n : Node) (hn : s.nodes.lookup i = some n) : n.readyAgrees = true := by
  obtain ⟨-, a, ha, -⟩ := c.exec_refines evs hfixed s hs
  have hwf := ha.wf.nodes i n hn
  refine hwf.advanceKeeps_iff.1 fun hchan => ?_
  obtain ⟨l', hl', heq⟩ := hwf.takeAdvance_eq hchan
  exact ⟨_, heq, (ha.nodes i n hn).advanced_abs ha.sound hwf hl'⟩

/-! ## Runs -/

/-- Node `1` has an entry in an outstanding `Ready`, and node `2` replaces the one behind it. -/
def replaceBehindReady : List Event :=
  electNode1 ++ [.ready 1, .propose 1 [7],
    .deliver { type := .msgApp, toID := 2, fromID := 1, term := 2,
               entries := [{ term := 2, index := 1 }] },
    .campaign 2, .ready 2, .advance 2,
    .deliver { type := .msgVote, toID := 3, fromID := 2, term := 3, logTerm := 2, logIndex := 1 },
    .ready 3, .deliver { type := .msgVoteResp, toID := 2, fromID := 3, term := 3 }, .ready 2,
    .deliver { type := .msgApp, toID := 1, fromID := 2, term := 3, logTerm := 2, logIndex := 1,
               entries := [{ term := 3, index := 2 }] }]

theorem FixedCluster.readyAgrees_replaced : ∃ s n,
    FixedCluster.trio.exec replaceBehindReady = .ok s ∧ s.nodes.lookup 1 = some n ∧
    n.advanceChan = true ∧ n.raft.raftLog.abs.map (·.term) = [2, 3] ∧ n.readyAgrees = true := by
  refine ⟨_, _, rfl, rfl, rfl, rfl, ?_⟩
  exact FixedCluster.trio.readyAgrees replaceBehindReady (by decide) _ (by rfl) 1 _ (by rfl)

/-- The log of node `1` is that of its list, and keeps its entries in an `Advance`. -/
theorem refines_abs_iff_replaced : ∃ s n,
    FixedCluster.trio.exec replaceBehindReady = .ok s ∧
    s.nodes.lookup 1 = some n ∧ n.raft.raftLog.abs.length = 2 ∧
    n.raft.raftLog.ReadsAs n.raft.raftLog.abs ∧
    n.raft.raftLog.AppendsAs 2 3 1 [{ term := 3, index := 3 }] ∧ n.AdvanceKeeps := by
  obtain ⟨s, hs, n, hn, hlen, happend, hready⟩ :
      ∃ s, FixedCluster.trio.exec replaceBehindReady = .ok s ∧ ∃ n, s.nodes.lookup 1 = some n ∧
        n.raft.raftLog.abs.length = 2 ∧
        n.raft.raftLog.appendable 2 3 [{ term := 3, index := 3 }] = true ∧
        n.readyAgrees = true := by decide +kernel
  obtain ⟨hreads, happends, hkeeps⟩ := refines_abs_iff _ replaceBehindReady s hs 1 n hn
  refine ⟨s, n, hs, hn, hlen, hreads, (happends _ _ _ _ ?_ ?_).2 happend, hkeeps.2 hready⟩
  · rintro (- | k) e he
    · cases he
      rfl
    · simp at he
  · intro e he
    rw [mem_singleton] at he
    simp [he]

/-- Node `1` is elected in term `4` with an entry of term `2`, node `2` is restarted and elects node
`3` in the same term. -/
def electBoth : List Event :=
  electNode1 ++ [
    -- node `3` takes node `1` to term `3`
    .campaign 3, .campaign 3, .ready 3, .advance 3,
    .deliver { type := .msgVote, fromID := 3, toID := 1, term := 3 },
    .campaign 1, .ready 1, .advance 1,
    .deliver { type := .msgVote, fromID := 1, toID := 2, term := 4, logIndex := 1, logTerm := 2 },
    .ready 2, .advance 2,
    .deliver { type := .msgVoteResp, fromID := 2, toID := 1, term := 4 }, .ready 1, .advance 1,
    .restart 2 0 fun _ => 0, .campaign 3, .ready 3, .advance 3,
    .deliver { type := .msgVote, fromID := 3, toID := 2, term := 4 }, .ready 2, .advance 2,
    .deliver { type := .msgVoteResp, fromID := 2, toID := 3, term := 4 },
    .propose 3 [7], .ready 3, .advance 3]

/-- Node `2` hands out the two entries of node `1`, and gets those of node `3` before the
`Advance`. -/
def overwriteReady : List Event :=
  electBoth ++
  [.deliver { type := .msgApp, fromID := 1, toID := 2, term := 4, logIndex := 1, logTerm := 2,
              entries := [{ term := 4, index := 2 }] }, .ready 2, .advance 2,
    .deliver { type := .msgAppResp, fromID := 2, toID := 1, term := 4, logIndex := 1,
               reject := true }, .ready 1,
    .deliver { type := .msgApp, fromID := 1, toID := 2, term := 4,
               entries := [{ term := 2, index := 1 }, { term := 4, index := 2 }] }, .ready 2,
    .deliver { type := .msgApp, fromID := 3, toID := 2, term := 4,
               entries := [{ term := 4, index := 1 }, { term := 4, index := 2, data := [7] }] }]

/-- **An `Advance` brings back overwritten entries**, and the empty log accepts entries after an
index that it does not have. -/
theorem advance_restores_overwritten :
    (∃ s n n', FixedCluster.trio.exec overwriteReady = .ok s ∧
      s.nodes.lookup 2 = some n ∧ n.advanceChan = true ∧ n.takeAdvance = .ok n' ∧
      n.raft.raftLog.abs = [{ term := 4, index := 1 }, { term := 4, index := 2, data := [7] }] ∧
      n'.raft.raftLog.abs = [{ term := 2, index := 1 }, { term := 4, index := 2 }]) ∧
    ∃ s n l', FixedCluster.trio.exec [] = .ok s ∧
      s.nodes.lookup 1 = some n ∧ n.raft.raftLog.abs = [] ∧
      n.raft.raftLog.maybeAppend 1 0 0 [] = .ok (some (l', 1)) := by
  constructor
  · obtain ⟨s, hs, n, hn, hchan, hbefore, n', hadvance, hafter⟩ :
        ∃ s, FixedCluster.trio.exec overwriteReady = .ok s ∧ ∃ n, s.nodes.lookup 2 = some n ∧
          n.advanceChan = true ∧
          n.raft.raftLog.abs = [{ term := 4, index := 1 }, { term := 4, index := 2, data := [7] }] ∧
          ∃ n', n.takeAdvance = .ok n' ∧
            n'.raft.raftLog.abs = [{ term := 2, index := 1 }, { term := 4, index := 2 }] := by
      decide +kernel
    exact ⟨s, n, n', hs, hn, hchan, hadvance, hbefore, hafter⟩
  · exact ⟨_, _, _, rfl, rfl, rfl, rfl⟩

end Yukino.Replica
