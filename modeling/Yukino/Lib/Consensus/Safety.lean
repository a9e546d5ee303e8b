import Yukino.Lib.Consensus.Preservation

set_option autoImplicit false

/-!
# What the replication protocol guarantees

The consequences of the invariant that an implementation of the protocol is used for, and
the facts about leaders and followers with which it justifies its messages.

## Main definitions

* `Consensus.Known` — the leader of a term may tell its followers that an index is committed.

## Main results

* `Consensus.LogOk.take_eq_of_termAt_eq` — log matching.
* `Consensus.Inv.take_eq_of_commit` — the committed entries of two nodes agree, even at different
  times.
* `Consensus.Inv.leader_complete` — what a leader has committed is in the log of every leader of a
  later term.
* `Consensus.Steps.append_all` — a leader appends several entries.
-/

namespace Consensus

open List

variable {N E : Type} [Termed E] {Q : QuorumSystem N} {a b : State N E} {i : N} {t k : ℕ}

/-! ## Log matching -/

/-- **Log matching**: two logs that have entries of one term at one index are identical up to
there. -/
theorem LogOk.take_eq_of_termAt_eq {l l' : List E} (h : LogOk a l)
    (h' : LogOk a l') (hk : 0 < k) (hl : k ≤ l.length) (hl' : k ≤ l'.length)
    (ht : termAt l k = termAt l' k) : l.take k = l'.take k := by
  obtain ⟨e, he, hte⟩ := exists_getElem?_of_le hk hl
  obtain ⟨e', he', hte'⟩ := exists_getElem?_of_le hk hl'
  have hpre := (h _ _ he).2
  have hpre' := (h' _ _ he').2
  rw [Nat.sub_add_cancel hk] at hpre hpre'
  rw [← hte, ht, hte'] at hpre
  have hlen : (l.take k).length = (l'.take k).length := by
    rw [length_take_of_le hl, length_take_of_le hl']
  exact (prefix_of_prefix_length_le hpre hpre' hlen.le).eq_of_length hlen

/-! ## Committed entries -/

namespace Inv

/-- The entries that were committed in two terms agree. -/
lemma take_eq_of_lcommit (h : Inv Q a) {t' : ℕ} (hk : k ≤ a.lcommit t)
    (hk' : k ≤ a.lcommit t') : (a.llog t).take k = (a.llog t').take k := by
  rcases Nat.eq_zero_or_pos k with rfl | hpos
  · simp
  · have hc := h.lcommit_ok t (by omega)
    have hc' := h.lcommit_ok t' (by omega)
    obtain ⟨hlen, hel⟩ := h.committed_le_length hc
    obtain ⟨hlen', hel'⟩ := h.committed_le_length hc'
    rcases Nat.le_total t t' with htt | htt
    · exact (take_eq_of_take_isPrefix (h.take_lcommit_isPrefix hk htt hel') (by omega)).symm
    · exact take_eq_of_take_isPrefix (h.take_lcommit_isPrefix hk' htt hel) (by omega)

/-- The committed entries of a node are those of a leader, also when the history goes on. -/
lemma take_commit_eq (h : Inv Q a) (hab : Extends a b) (hk : k ≤ a.commit i) :
    ∃ t ≤ a.term i, k ≤ b.lcommit t ∧ (a.log i).take k = (b.llog t).take k := by
  rcases Nat.eq_zero_or_pos k with rfl | hpos
  · exact ⟨a.term i, le_rfl, Nat.zero_le _, by simp⟩
  · obtain ⟨t, ht, hle, -, heq⟩ := h.commit_ok i (by omega)
    obtain ⟨hlen, -⟩ := h.committed_le_length (h.lcommit_ok t (by omega))
    refine ⟨t, ht, by have := hab.lcommit t; omega, ?_⟩
    rw [take_llog_eq hab (show k ≤ (a.llog t).length by omega), ← Nat.min_eq_left hk,
      ← take_take, heq, take_take]

/-- **The committed entries of two nodes agree**, also when the second node is looked at
later than the first. -/
theorem take_eq_of_commit (ha : Inv Q a) (hb : Inv Q b) (hab : Extends a b) {j : N}
    (hi : k ≤ a.commit i) (hj : k ≤ b.commit j) : (a.log i).take k = (b.log j).take k := by
  obtain ⟨t, -, hk, heq⟩ := ha.take_commit_eq hab hi
  obtain ⟨t', -, hk', heq'⟩ := hb.take_commit_eq (Extends.refl b) hj
  rw [heq, heq', hb.take_eq_of_lcommit hk hk']

/-- The leader of a node's term has what the node has committed. -/
lemma take_commit_isPrefix (h : Inv Q a) (hlead : a.elected (a.term i) ≠ none) :
    (a.log i).take (a.commit i) <+: a.llog (a.term i) := by
  obtain ⟨t, ht, hle, heq⟩ := h.take_commit_eq (Extends.refl a) (le_refl (a.commit i))
  rw [heq]
  exact h.take_lcommit_isPrefix hle ht hlead

/-- **Leader completeness**: the entries that a node has committed are in the log of every
leader of a later term. -/
theorem leader_complete (ha : Inv Q a) (hb : Inv Q b) (hab : Extends a b) {t' : ℕ}
    (hk : k ≤ a.commit i) (ht : a.term i < t') (hel : b.elected t' ≠ none) :
    (a.log i).take k <+: b.llog t' := by
  obtain ⟨t, htle, hkl, heq⟩ := ha.take_commit_eq hab hk
  rw [heq]
  exact hb.take_lcommit_isPrefix hkl (by omega) hel

end Inv

/-! ## What a leader may tell its followers -/

/-- In the log of the leader of term `t` the first `k` entries are committed. -/
def Known (a : State N E) (t k : ℕ) : Prop :=
  k ≤ (a.llog t).length ∧ ∃ u ≤ t, k ≤ a.lcommit u ∧ (a.llog t).take k = (a.llog u).take k

lemma Known.mono (h : Inv Q a) (hab : Extends a b) (hk : Known a t k) : Known b t k := by
  obtain ⟨hlen, u, hu, hle, heq⟩ := hk
  refine ⟨hlen.trans (hab.llog t).length_le, u, hu, hle.trans (hab.lcommit u), ?_⟩
  rcases Nat.eq_zero_or_pos k with rfl | hpos
  · simp
  · obtain ⟨hlen', -⟩ := h.committed_le_length (h.lcommit_ok u (by omega))
    rw [take_llog_eq hab hlen, take_llog_eq hab (show k ≤ (a.llog u).length by omega), heq]

omit [Termed E] in
lemma Known.of_le {j : ℕ} (hk : Known a t k) (hj : j ≤ k) : Known a t j := by
  obtain ⟨hlen, u, hu, hle, heq⟩ := hk
  refine ⟨hj.trans hlen, u, hu, hj.trans hle, ?_⟩
  rw [← Nat.min_eq_left hj, ← take_take, heq, take_take]

/-- A leader knows what it has committed. -/
lemma Known.of_leader (h : Inv Q a) (hlead : a.elected (a.term i) = some i) :
    Known a (a.term i) (a.commit i) := by
  have hlog := h.leader_log i hlead
  rcases Nat.eq_zero_or_pos (a.commit i) with h0 | hpos
  · rw [h0]
    exact ⟨Nat.zero_le _, a.term i, le_rfl, Nat.zero_le _, rfl⟩
  · obtain ⟨u, hu, hle, hlen, heq⟩ := h.commit_ok i hpos
    rw [hlog] at hlen heq
    exact ⟨hlen, u, hu, hle, heq⟩

/-- In the term of its acknowledgement, a node has what it has acknowledged. -/
lemma Inv.take_acked_isPrefix (h : Inv Q a) (hk : k ≤ a.acked i (a.term i)) :
    (a.llog (a.term i)).take k <+: a.log i :=
  h.acked_log i (a.term i) k hk fun u hu hu' => by omega

/-! ## Steps -/

variable [DecidableEq N] [DecidableEq E]

/-- A node learns what its leader knows, if it has the entries. -/
lemma Known.learn (hk : Known a (a.term i) k) (hlog : (a.llog (a.term i)).take k <+: a.log i) :
    Step Q a i { a with commit := Function.update a.commit i (max (a.commit i) k) } := by
  obtain ⟨hlen, u, hu, hle, heq⟩ := hk
  have hplen : ((a.llog (a.term i)).take k).length = k := length_take_of_le hlen
  refine Step.learnCommit k u hu hle (hplen ▸ hlog.length_le) ?_
  rw [← heq, take_eq_of_take_isPrefix hlog hlen]

/-- A leader appends several entries. -/
lemma Steps.append_all {es : List E}
    (hlead : a.elected (a.term i) = some i) (hes : ∀ e ∈ es, Termed.term e = a.term i)
    (hne : es ≠ []) :
    Steps Q i a { a with
      log := Function.update a.log i (a.log i ++ es)
      llog := Function.update a.llog (a.term i) (a.log i ++ es)
      acked := set₂ a.acked i (a.term i) ((a.log i).length + es.length) } := by
  induction es using reverseRecOn with
  | nil => exact absurd rfl hne
  | append_singleton es e ih =>
    have he : Termed.term e = a.term i := hes e (by simp)
    rcases eq_nil_or_concat es with rfl | ⟨_, _, hne'⟩
    · exact Relation.ReflTransGen.single (Step.append e hlead he)
    · have hprev := ih (fun x hx => hes x (by simp [hx])) (by simp [hne'])
      refine hprev.tail ?_
      have hstep := Step.append (Q := Q) (a := { a with
        log := Function.update a.log i (a.log i ++ es)
        llog := Function.update a.llog (a.term i) (a.log i ++ es)
        acked := set₂ a.acked i (a.term i) ((a.log i).length + es.length) }) (i := i) e hlead he
      simp only [Function.update_self, Function.update_idem, length_append] at hstep
      have hacked : set₂ (set₂ a.acked i (a.term i) ((a.log i).length + es.length)) i (a.term i)
          ((a.log i).length + es.length + 1) =
          set₂ a.acked i (a.term i) ((a.log i).length + (es ++ [e]).length) := by
        funext j s
        rw [set₂_apply, set₂_apply, set₂_apply]
        split
        · rw [length_append, length_singleton, Nat.add_assoc]
        · rfl
      rw [hacked, append_assoc] at hstep
      exact hstep

end Consensus
