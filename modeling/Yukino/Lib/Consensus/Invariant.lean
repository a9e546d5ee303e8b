import Yukino.Lib.Consensus.Protocol

set_option autoImplicit false

/-!
# The inductive invariant of the replication protocol

One invariant carries election safety, log matching and leader completeness. Its central
clauses speak about a node that has acknowledged the first `k` entries of a leader's log:
the node still has them, and the candidates it later votes for have them, unless a leader
in between did not.

## Main definitions

* `Consensus.Inv` — the invariant.

## Main results

* `Consensus.Inv.has_of_committed` — leader completeness.
* `Consensus.extends_of_step` — an action only extends the history.
* `Consensus.Inv.elected_unique` — a term has one leader.
-/

namespace Consensus

open List

/-! ## Prefixes and merging -/

section

variable {α : Type} {l m : List α} {j k : ℕ}

/-- The first `k` elements do not change when a list of that length grows. -/
lemma take_eq_of_isPrefix (h : l <+: m) (hk : k ≤ l.length) : m.take k = l.take k := by
  obtain ⟨s, rfl⟩ := h
  rw [take_append_of_le_length hk]

lemma take_eq_of_take_isPrefix (h : l.take k <+: m) (hk : k ≤ l.length) : m.take k = l.take k := by
  rw [take_eq_of_isPrefix h (by rw [length_take]; omega), take_take, Nat.min_self]

variable [DecidableEq α]

lemma prefix_merge {pre p : List α} (hl : p <+: l) (hcmp : p <+: pre ∨ pre <+: p) :
    p <+: merge l pre := by
  unfold merge
  split
  · exact hl
  · rename_i hne
    rcases hcmp with h | h
    · exact h
    · exact absurd (h.trans hl) hne

lemma prefix_merge_self (l pre : List α) : pre <+: merge l pre := by
  unfold merge
  split
  · assumption
  · exact prefix_rfl

end

variable {N E : Type} [Termed E]

/-! ## Terms in a log -/

lemma termAt_pos {l : List E} {k : ℕ} (hk : 0 < k) :
    termAt l k = (l[k - 1]?.map Termed.term).getD 0 := by
  rw [termAt, if_neg (by omega)]

/-- The entry behind a positive index within the log. -/
lemma exists_getElem?_of_le {l : List E} {k : ℕ} (hk : 0 < k) (hl : k ≤ l.length) :
    ∃ e, l[k - 1]? = some e ∧ termAt l k = Termed.term e := by
  refine ⟨l[k - 1], getElem?_eq_getElem (by omega), ?_⟩
  rw [termAt_pos hk, getElem?_eq_getElem (by omega)]
  rfl

/-- Beyond the end of a log there are no terms. -/
lemma le_length_of_termAt_pos {l : List E} {k : ℕ} (h : 0 < termAt l k) : k ≤ l.length := by
  by_contra hlt
  rw [termAt_pos (by omega), getElem?_eq_none (by omega)] at h
  exact absurd h (lt_irrefl 0)

lemma termAt_take {l : List E} {j k : ℕ} (h : j ≤ k) : termAt (l.take k) j = termAt l j := by
  rcases Nat.eq_zero_or_pos j with rfl | hj
  · rfl
  · rw [termAt_pos hj, termAt_pos hj, getElem?_take_of_lt (by omega)]

lemma termAt_of_isPrefix {l m : List E} {k : ℕ} (h : l <+: m) (hk : k ≤ l.length) :
    termAt l k = termAt m k := by
  obtain ⟨s, rfl⟩ := h
  rcases Nat.eq_zero_or_pos k with rfl | hpos
  · rfl
  · rw [termAt_pos hpos, termAt_pos hpos, getElem?_append_left (by omega)]

/-! ## Logs of elected leaders -/

lemma LogOk.mono {a b : State N E} (hab : Extends a b) {l : List E} (h : LogOk a l) :
    LogOk b l := by
  intro k e hk
  obtain ⟨hne, hpre⟩ := h k e hk
  obtain ⟨c, hc⟩ := Option.ne_none_iff_exists'.1 hne
  exact ⟨by rw [hab.elected _ _ hc]; simp, hpre.trans (hab.llog _)⟩

lemma LogOk.of_isPrefix {a : State N E} {l m : List E} (h : LogOk a m) (hlm : l <+: m) :
    LogOk a l := by
  intro k e hk
  have hlt : k < l.length := (List.getElem?_eq_some_iff.1 hk).1
  obtain ⟨s, rfl⟩ := hlm
  have hk' : (l ++ s)[k]? = some e := by rw [getElem?_append_left hlt]; exact hk
  obtain ⟨hne, hpre⟩ := h k e hk'
  rw [take_append_of_le_length (by omega)] at hpre
  exact ⟨hne, hpre⟩

/-- A nonempty log is a prefix of the log of the leader of its last term. -/
lemma LogOk.prefix_last {a : State N E} {l : List E} (h : LogOk a l) (hne : l ≠ []) :
    a.elected (lastTerm l) ≠ none ∧ l <+: a.llog (lastTerm l) := by
  have hpos : 0 < l.length := length_pos_iff.2 hne
  obtain ⟨e, he, ht⟩ := exists_getElem?_of_le hpos le_rfl
  obtain ⟨hel, hpre⟩ := h _ _ he
  rw [Nat.sub_add_cancel hpos, take_length] at hpre
  rw [lastTerm, ht]
  exact ⟨hel, hpre⟩

/-- The invariant of the protocol. -/
structure Inv (Q : QuorumSystem N) (a : State N E) : Prop where
  /-- Votes are for the voter's and the candidate's present or past terms. -/
  voted_le : ∀ v t c, a.voted v t = some c → t ≤ a.term v ∧ t ≤ a.term c
  /-- A leader of a node's current term that is the node itself has the node's log. -/
  leader_log : ∀ i, a.elected (a.term i) = some i → a.log i = a.llog (a.term i)
  llog_nil : ∀ t, a.elected t = none → a.llog t = []
  log_ok : ∀ i, LogOk a (a.log i)
  clog_ok : ∀ i t, LogOk a (a.clog i t)
  llog_ok : ∀ t, LogOk a (a.llog t)
  log_term : ∀ i, ∀ e ∈ a.log i, Termed.term e ≤ a.term i
  clog_term : ∀ i t, ∀ e ∈ a.clog i t, Termed.term e < t
  llog_term : ∀ t, ∀ e ∈ a.llog t, Termed.term e ≤ t
  acked_ok : ∀ v t, 0 < a.acked v t →
    a.elected t ≠ none ∧ t ≤ a.term v ∧ a.acked v t ≤ (a.llog t).length
  /-- A node has what it acknowledged, if all later leaders up to its term have it. -/
  acked_log : ∀ v t k, k ≤ a.acked v t → HasBetween a t (a.term v + 1) k →
    (a.llog t).take k <+: a.log v
  /-- A candidate has what its voter acknowledged, if all leaders in between have it. -/
  acked_clog : ∀ v t' c, a.voted v t' = some c → a.elected t' = none →
    ∀ t k, 0 < k → k ≤ a.acked v t → t < t' → termAt (a.llog t) k = t →
      HasBetween a t t' k → (a.llog t).take k <+: a.clog c t'
  /-- A leader was elected by a quorum, and has what its voters acknowledged, if all
  leaders in between have it. -/
  acked_llog : ∀ t' c, a.elected t' = some c → ∃ q, Q.isQuorum q ∧ ∀ v ∈ q,
    a.voted v t' = some c ∧ ∀ t k, 0 < k → k ≤ a.acked v t → t < t' →
      termAt (a.llog t) k = t → HasBetween a t t' k → Has a t' t k
  lcommit_ok : ∀ t, 0 < a.lcommit t → Committed Q a t (a.lcommit t)
  leader_commit : ∀ i, a.elected (a.term i) = some i → a.lcommit (a.term i) ≤ a.commit i
  commit_ok : ∀ i, 0 < a.commit i → ∃ t, t ≤ a.term i ∧ a.commit i ≤ a.lcommit t ∧
    a.commit i ≤ (a.log i).length ∧ (a.log i).take (a.commit i) = (a.llog t).take (a.commit i)

namespace Inv

variable {Q : QuorumSystem N} {a b : State N E}

/-! ## Consequences -/

variable (h : Inv Q a)
include h

/-- An elected leader has reached the term of its election. -/
lemma elected_le {t : ℕ} {c : N} (ht : a.elected t = some c) : t ≤ a.term c := by
  obtain ⟨q, hq, hv⟩ := h.acked_llog t c ht
  obtain ⟨v, hvq, -⟩ := Q.inter hq hq
  exact (h.voted_le v t c (hv v hvq).1).2

/-- **Election safety**: a quorum of votes is a quorum for the one leader of the term. -/
lemma elected_unique {t : ℕ} {c d : N} (hc : a.elected t = some c)
    {q : Finset N} (hq : Q.isQuorum q) (hd : ∀ v ∈ q, a.voted v t = some d) : c = d := by
  obtain ⟨q', hq', hv⟩ := h.acked_llog t c hc
  obtain ⟨v, hvq, hvq'⟩ := Q.inter hq hq'
  have := hd v hvq
  rw [(hv v hvq').1] at this
  exact Option.some.inj this

/-- **Leader completeness**: a committed prefix is in the log of every later leader.

**Proof sketch.** Strong induction on the later term `t'`. The quorum that acknowledged the
prefix and the quorum that elected the leader of `t'` share a voter, and all leaders in
between have the prefix by induction. -/
theorem has_of_committed {t k : ℕ} (hc : Committed Q a t k) :
    ∀ t', t < t' → a.elected t' ≠ none → Has a t' t k := by
  intro t'
  induction t' using Nat.strong_induction_on with
  | _ t' ih =>
    intro hlt hel
    obtain ⟨hk, hterm, q, hq, hack⟩ := hc
    obtain ⟨c, hc'⟩ := Option.ne_none_iff_exists'.1 hel
    obtain ⟨q', hq', hv⟩ := h.acked_llog t' c hc'
    obtain ⟨v, hvq, hvq'⟩ := Q.inter hq hq'
    exact (hv v hvq').2 t k hk (hack v hvq) hlt hterm fun u htu hut => ih u hut htu

lemma committed_le_length {t k : ℕ} (hc : Committed Q a t k) :
    k ≤ (a.llog t).length ∧ a.elected t ≠ none := by
  obtain ⟨hk, -, q, hq, hack⟩ := hc
  obtain ⟨v, hv, -⟩ := Q.inter hq hq
  have hpos : 0 < a.acked v t := lt_of_lt_of_le hk (hack v hv)
  obtain ⟨hel, -, hle⟩ := h.acked_ok v t hpos
  exact ⟨(hack v hv).trans hle, hel⟩

/-- What the leader of `t` has committed is in the log of every leader from `t` on. -/
lemma take_lcommit_isPrefix {t t' k : ℕ} (hk : k ≤ a.lcommit t) (htt : t ≤ t')
    (hel : a.elected t' ≠ none) : (a.llog t).take k <+: a.llog t' := by
  rcases Nat.eq_zero_or_pos k with rfl | hpos
  · simp
  · rcases Nat.eq_or_lt_of_le htt with rfl | hlt
    · exact List.take_prefix _ _
    · exact (take_prefix_take_left hk).trans
        (h.has_of_committed (h.lcommit_ok t (by omega)) t' hlt hel)

/-- A log that is up to date carries an acknowledged prefix over.

**Proof sketch.** The entry at `k` has term `t`, so the voter's last term is at least `t`.
If the candidate's last term is the same, both logs are prefixes of one leader's log and the
candidate's is the longer one. Otherwise the candidate's log is a prefix of the log of a
leader between `t` and `T` that has the prefix; if it were shorter than the prefix, its last
entry would be one of the leader of `t`, whose terms are at most `t`. -/
lemma prefix_of_upToDate {lc lv : List E} {t k T : ℕ} (hk : 0 < k)
    (hkl : k ≤ (a.llog t).length) (hterm : termAt (a.llog t) k = t)
    (hlc : LogOk a lc) (hlv : LogOk a lv) (hT : ∀ e ∈ lc, Termed.term e < T)
    (hup : UpToDate lc lv) (hhas : HasBetween a t T k)
    (hp : (a.llog t).take k <+: lv) : (a.llog t).take k <+: lc := by
  have hplen : ((a.llog t).take k).length = k := length_take_of_le hkl
  have hvlen : k ≤ lv.length := hplen ▸ hp.length_le
  have hvne : lv ≠ [] := by
    rintro rfl
    simp only [length_nil] at hvlen
    omega
  obtain ⟨-, hvpre⟩ := hlv.prefix_last hvne
  -- the voter's log ends in a term of at least `t`
  have hle : t ≤ lastTerm lv := by
    obtain ⟨e, he, het⟩ := exists_getElem?_of_le (l := lv) hk hvlen
    have hte : Termed.term e = t := by
      rw [← het, ← termAt_of_isPrefix hp (by omega), termAt_take le_rfl, hterm]
    rw [← hte]
    exact h.llog_term _ e (hvpre.subset (mem_of_getElem? he))
  rcases hup with hlt | ⟨heq, hlen⟩
  · have hcne : lc ≠ [] := by
      rintro rfl
      simp [lastTerm, termAt] at hlt
    obtain ⟨hcel, hcpre⟩ := hlc.prefix_last hcne
    obtain ⟨e, he, het⟩ := exists_getElem?_of_le (length_pos_iff.2 hcne) le_rfl
    have hmem : e ∈ lc := mem_of_getElem? he
    have hTe : lastTerm lc < T := by rw [lastTerm, het]; exact hT e hmem
    have hin := hhas _ (lt_of_le_of_lt hle hlt) hTe hcel
    rcases List.prefix_or_prefix_of_prefix hin hcpre with h1 | h1
    · exact h1
    · have := h.llog_term t e (mem_of_mem_take (h1.subset hmem))
      have hlast : lastTerm lc = Termed.term e := het
      omega
  · have hcne : lc ≠ [] := by
      rintro rfl
      simp only [length_nil] at hlen
      omega
    obtain ⟨-, hcpre⟩ := hlc.prefix_last hcne
    rw [← heq] at hcpre
    exact hp.trans (prefix_of_prefix_length_le hvpre hcpre hlen)

end Inv

end Consensus
