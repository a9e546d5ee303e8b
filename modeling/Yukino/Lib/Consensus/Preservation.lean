import Yukino.Lib.Consensus.Invariant

set_option autoImplicit false

/-!
# Every action preserves the invariant of the replication protocol

## Main results

* `Consensus.extends_of_step`, `Consensus.sameNode_of_step` — an action extends the history and
  changes the state of the acting node only.
* `Consensus.Inv.step` — the invariant is preserved by every action.
* `Consensus.Inv.initial` — it holds initially.
-/

namespace Consensus

open List Function

variable {N E : Type} {a b : State N E} {i : N}

/-! ## The history grows -/

lemma Extends.refl (a : State N E) : Extends a a :=
  ⟨fun _ => le_rfl, fun _ _ _ h => h, fun _ _ _ => rfl, fun _ _ h => h,
    fun _ => prefix_rfl, fun _ _ => le_rfl, fun _ => le_rfl⟩

lemma Extends.trans {a b c : State N E} (h₁ : Extends a b) (h₂ : Extends b c) : Extends a c where
  term i := (h₁.term i).trans (h₂.term i)
  voted v t d h := h₂.voted v t d (h₁.voted v t d h)
  clog d t h := by rw [h₂.clog d t (h.trans (h₁.term d)), h₁.clog d t h]
  elected t d h := h₂.elected t d (h₁.elected t d h)
  llog t := (h₁.llog t).trans (h₂.llog t)
  acked v t := (h₁.acked v t).trans (h₂.acked v t)
  lcommit t := (h₁.lcommit t).trans (h₂.lcommit t)

lemma Extends.elected_ne (h : Extends a b) {t : ℕ} (ht : a.elected t ≠ none) :
    b.elected t ≠ none := by
  obtain ⟨c, hc⟩ := Option.ne_none_iff_exists'.1 ht
  rw [h.elected t c hc]
  simp

/-! ## How the clauses of the invariant grow with the history -/

/-- Among the terms that matter, the first `k` entries of a leader's log stay the same. -/
lemma take_llog_eq (hab : Extends a b) {t k : ℕ} (hk : k ≤ (a.llog t).length) :
    (b.llog t).take k = (a.llog t).take k :=
  take_eq_of_isPrefix (hab.llog t) hk

variable [Termed E] {Q : QuorumSystem N}

lemma Inv.acked_le (h : Inv Q a) (v : N) (t : ℕ) : a.acked v t ≤ (a.llog t).length := by
  rcases Nat.eq_zero_or_pos (a.acked v t) with h0 | hpos
  · omega
  · exact (h.acked_ok v t hpos).2.2

lemma Committed.mono (h : Inv Q a) (hab : Extends a b) {t k : ℕ} (hc : Committed Q a t k) :
    Committed Q b t k := by
  obtain ⟨hlen, -⟩ := h.committed_le_length hc
  obtain ⟨hk, ht, q, hq, hack⟩ := hc
  refine ⟨hk, ?_, q, hq, fun v hv => (hack v hv).trans (hab.acked v t)⟩
  rw [← termAt_of_isPrefix (hab.llog t) hlen, ht]

/-- If the leaders' logs of `b` that are longer than in `a` only gained entries of their
own term, then `HasBetween` may be read back from `b` to `a`. -/
lemma HasBetween.of_extends (h : Inv Q a) (hab : Extends a b)
    (hnew : ∀ u, a.elected u ≠ none →
      b.llog u = a.llog u ∨ ∃ e, Termed.term e = u ∧ b.llog u = a.llog u ++ [e])
    {t t' k : ℕ} (hk : k ≤ (a.llog t).length) (hb : HasBetween b t t' k) :
    HasBetween a t t' k := by
  intro u htu hut hel
  have hu := hb u htu hut (hab.elected_ne hel)
  rw [Has, take_llog_eq hab hk] at hu
  rcases hnew u hel with heq | ⟨e, het, heq⟩
  · rwa [heq] at hu
  · rw [heq] at hu
    -- the new entry has term `u`, so it is not among those of term `t`
    rcases List.prefix_or_prefix_of_prefix hu (prefix_append (a.llog u) [e]) with hp | hp
    · exact hp
    · have hlen : ((a.llog t).take k).length ≤ (a.llog u).length := by
        by_contra hgt
        have hfull : (a.llog t).take k = a.llog u ++ [e] := by
          refine hu.eq_of_length_le ?_
          simp only [length_append, length_singleton]
          omega
        have hmem : e ∈ a.llog t := by
          refine mem_of_mem_take (i := k) ?_
          rw [hfull]
          simp
        have := h.llog_term t e hmem
        omega
      rw [Has, ← hp.eq_of_length_le hlen]

/-- The part of the invariant that an action can break only by new acknowledgements, votes
or elections. -/
structure Quiet (a b : State N E) : Prop where
  extends_ : Extends a b
  voted : b.voted = a.voted
  clog : b.clog = a.clog
  elected : b.elected = a.elected

/-- An action without votes and elections keeps the clauses about votes, provided new
acknowledgements are for the acting node's current term. -/
lemma acked_clog_of_quiet (h : Inv Q a) (hq : Quiet a b)
    (hnew : ∀ u, a.elected u ≠ none →
      b.llog u = a.llog u ∨ ∃ e, Termed.term e = u ∧ b.llog u = a.llog u ++ [e])
    (hack : ∀ v t, b.acked v t ≠ a.acked v t → v = i ∧ t = a.term i) :
    (∀ v t' c, b.voted v t' = some c → b.elected t' = none →
      ∀ t k, 0 < k → k ≤ b.acked v t → t < t' → termAt (b.llog t) k = t →
        HasBetween b t t' k → (b.llog t).take k <+: b.clog c t') ∧
    (∀ t' c, b.elected t' = some c → ∃ q, Q.isQuorum q ∧ ∀ v ∈ q,
      b.voted v t' = some c ∧ ∀ t k, 0 < k → k ≤ b.acked v t → t < t' →
        termAt (b.llog t) k = t → HasBetween b t t' k → Has b t' t k) := by
  -- a voter in `t'` acknowledges nothing new in a term before `t'`
  have hold : ∀ v t t' c k, a.voted v t' = some c → t < t' → 0 < k → k ≤ b.acked v t →
      k ≤ a.acked v t ∧ k ≤ (a.llog t).length := by
    intro v t t' c k hv htt hk hkb
    have heq : b.acked v t = a.acked v t := by
      by_contra hne
      obtain ⟨rfl, rfl⟩ := hack v t hne
      have := (h.voted_le _ _ _ hv).1
      omega
    rw [heq] at hkb
    exact ⟨hkb, hkb.trans (h.acked_le v t)⟩
  constructor
  · intro v t' c hv hel t k hk hkb htt hterm hb
    rw [hq.voted] at hv
    rw [hq.elected] at hel
    obtain ⟨hka, hlen⟩ := hold v t t' c k hv htt hk hkb
    rw [← termAt_of_isPrefix (hq.extends_.llog t) hlen] at hterm
    rw [hq.clog, take_llog_eq hq.extends_ hlen]
    exact h.acked_clog v t' c hv hel t k hk hka htt hterm (hb.of_extends h hq.extends_ hnew hlen)
  · intro t' c hel
    rw [hq.elected] at hel
    obtain ⟨q, hQ, hv⟩ := h.acked_llog t' c hel
    refine ⟨q, hQ, fun v hvq => ⟨by rw [hq.voted]; exact (hv v hvq).1, ?_⟩⟩
    intro t k hk hkb htt hterm hb
    obtain ⟨hka, hlen⟩ := hold v t t' c k (hv v hvq).1 htt hk hkb
    rw [← termAt_of_isPrefix (hq.extends_.llog t) hlen] at hterm
    have := (hv v hvq).2 t k hk hka htt hterm (hb.of_extends h hq.extends_ hnew hlen)
    rw [Has, take_llog_eq hq.extends_ hlen]
    exact this.trans (hq.extends_.llog t')

/-- The invariant holds initially. -/
lemma Inv.initial (h : Initial a) : Inv Q a where
  voted_le v t c hv := by simp [h.voted] at hv
  leader_log i hi := by simp [h.elected] at hi
  llog_nil t _ := h.llog t
  log_ok i k e hk := by simp [h.log] at hk
  clog_ok i t k e hk := by simp [h.clog] at hk
  llog_ok t k e hk := by simp [h.llog] at hk
  log_term i e he := by simp [h.log] at he
  clog_term i t e he := by simp [h.clog] at he
  llog_term t e he := by simp [h.llog] at he
  acked_ok v t hpos := by simp [h.acked] at hpos
  acked_log v t k hk _ := by simp [h.llog]
  acked_clog v t' c hv := by simp [h.voted] at hv
  acked_llog t' c hel := by simp [h.elected] at hel
  lcommit_ok t ht := by simp [h.lcommit] at ht
  leader_commit i hi := by simp [h.elected] at hi
  commit_ok i hi := by simp [h.commit] at hi

/-! ## The actions one by one -/

variable [DecidableEq N]

lemma set₂_apply {α : Type} (f : N → ℕ → α) (i j : N) (s t : ℕ) (v : α) :
    set₂ f i t v j s = if j = i ∧ s = t then v else f j s := rfl

lemma eq_of_set₂_ne {α : Type} {f : N → ℕ → α} {i j : N} {s t : ℕ} {v : α}
    (h : set₂ f i t v j s ≠ f j s) : j = i ∧ s = t := by
  by_contra hne
  exact h (if_neg hne)

lemma le_set₂ {f : N → ℕ → ℕ} {t v : ℕ} (h : f i t ≤ v) (j : N) (s : ℕ) :
    f j s ≤ set₂ f i t v j s := by
  rw [set₂_apply]
  split
  · rename_i heq
    rwa [heq.1, heq.2]
  · exact le_rfl

/-- A vote that is known is the new one or an old one. -/
lemma set₂_eq_some {f : N → ℕ → Option N} {t s : ℕ} {j c d : N}
    (h : set₂ f i t (some c) j s = some d) : (j = i ∧ s = t ∧ c = d) ∨ f j s = some d := by
  rw [set₂_apply] at h
  split at h
  · rename_i heq
    exact .inl ⟨heq.1, heq.2, Option.some.inj h⟩
  · exact .inr h

variable [DecidableEq E]

/-- An action extends the history. -/
lemma extends_of_step (h : Inv Q a) (hs : Step Q a i b) : Extends a b := by
  cases hs with
  | adopt t ht => exact { Extends.refl a with term := le_update_self_iff.2 ht.le }
  | campaign =>
    refine { Extends.refl a with
      term := le_update_self_iff.2 (Nat.le_succ _), voted := fun v t c hv => ?_,
      clog := fun c t hc => ?_ }
    · dsimp only
      rw [set₂_apply, if_neg]
      · exact hv
      · rintro ⟨rfl, rfl⟩
        have := (h.voted_le _ _ _ hv).1
        omega
    · dsimp only
      rw [set₂_apply, if_neg]
      rintro ⟨rfl, rfl⟩
      omega
  | grant c hfree hc hup =>
    refine { Extends.refl a with voted := fun v t d hv => ?_ }
    dsimp only
    rw [set₂_apply]
    split
    · rename_i heq
      obtain ⟨rfl, rfl⟩ := heq
      rw [hfree d hv]
    · exact hv
  | elect q hnew hq hvotes hlog =>
    refine { Extends.refl a with
      elected := fun t c ht => ?_
      llog := (forall_update_iff a.llog fun t l => a.llog t <+: l).2
        ⟨?_, fun _ _ => prefix_rfl⟩ }
    · dsimp only
      rw [update_of_ne]
      · exact ht
      · rintro rfl
        rw [hnew] at ht
        cases ht
    · rw [h.llog_nil _ hnew]
      exact List.nil_prefix
  | append e hlead he =>
    refine { Extends.refl a with
      llog := (forall_update_iff a.llog fun t l => a.llog t <+: l).2
        ⟨?_, fun _ _ => prefix_rfl⟩
      acked := le_set₂ ?_ }
    · rw [h.leader_log i hlead]
      exact prefix_append _ _
    · rw [h.leader_log i hlead]
      exact (h.acked_le i _).trans (Nat.le_succ _)
  | accept k hlead hother hk =>
    exact { Extends.refl a with acked := le_set₂ (le_max_left _ _) }
  | leaderCommit k q hlead hnew hk ht hq hack =>
    exact { Extends.refl a with
      lcommit := le_update_self_iff.2 ((h.leader_commit i hlead).trans hnew.le) }
  | learnCommit k t ht hk hlen hlog => exact { Extends.refl a with }

/-- An action leaves the other nodes alone. -/
lemma sameNode_of_step (hs : Step Q a i b) {j : N} (hj : j ≠ i) : SameNode a b j := by
  have hset : ∀ t u v, set₂ a.voted i t v j u = a.voted j u := fun t u v => by
    rw [set₂_apply, if_neg fun h => hj h.1]
  cases hs with
  | adopt t ht => exact ⟨update_of_ne hj _ _, rfl, rfl, fun _ => rfl, fun _ h => h⟩
  | campaign =>
    exact ⟨update_of_ne hj _ _, rfl, rfl, fun u => hset _ u _, fun _ h => h⟩
  | grant c => exact ⟨rfl, rfl, rfl, fun u => hset _ u _, fun _ h => h⟩
  | elect q =>
    refine ⟨rfl, rfl, rfl, fun _ => rfl, fun t h => ?_⟩
    dsimp only at h
    rcases eq_or_ne t (a.term i) with rfl | ht
    · rw [update_self] at h
      exact absurd (Option.some.inj h).symm hj
    · rwa [update_of_ne ht] at h
  | append | accept => exact ⟨rfl, update_of_ne hj _ _, rfl, fun _ => rfl, fun _ h => h⟩
  | leaderCommit | learnCommit =>
    exact ⟨rfl, rfl, update_of_ne hj _ _, fun _ => rfl, fun _ h => h⟩

namespace Inv

section

variable (h : Inv Q a)
include h

lemma adopt {t : ℕ} (ht : a.term i < t) : Inv Q { a with term := update a.term i t } := by
  have hext := extends_of_step h (Step.adopt (Q := Q) t ht)
  -- the node is no leader in the term it enters
  have hlead : ∀ j, a.elected (update a.term i t j) = some j →
      update a.term i t j = a.term j := by
    intro j hj
    rcases eq_or_ne j i with rfl | hji
    · rw [update_self] at hj
      have := h.elected_le hj
      omega
    · exact update_of_ne hji _ _
  refine { h with
    voted_le := fun v u c hv => ?_, leader_log := fun j hj => ?_,
    log_term := fun j e he => (h.log_term j e he).trans (hext.term j),
    acked_ok := fun v u hu => ?_, acked_log := fun v u k hk hb => ?_,
    leader_commit := fun j hj => ?_, commit_ok := fun j hj => ?_ }
  · obtain ⟨h1, h2⟩ := h.voted_le v u c hv
    exact ⟨h1.trans (hext.term v), h2.trans (hext.term c)⟩
  · have heq := hlead j hj
    dsimp only at hj ⊢
    rw [heq] at hj ⊢
    exact h.leader_log j hj
  · obtain ⟨h1, h2, h3⟩ := h.acked_ok v u hu
    exact ⟨h1, h2.trans (hext.term v), h3⟩
  · refine h.acked_log v u k hk fun w huw hw => hb w huw (lt_of_lt_of_le hw ?_)
    exact Nat.add_le_add_right (hext.term v) 1
  · have heq := hlead j hj
    dsimp only at hj ⊢
    rw [heq] at hj ⊢
    exact h.leader_commit j hj
  · obtain ⟨u, hu, hrest⟩ := h.commit_ok j hj
    exact ⟨u, hu.trans (hext.term j), hrest⟩

/-- Standing for election is entering the next term and recording a vote and a log. -/
lemma campaign :
    Inv Q { a with
      term := update a.term i (a.term i + 1)
      voted := set₂ a.voted i (a.term i + 1) (some i)
      clog := set₂ a.clog i (a.term i + 1) (a.log i) } := by
  have hext := extends_of_step h (Step.campaign (Q := Q) (a := a) (i := i))
  have h' := h.adopt (i := i) (t := a.term i + 1) (by omega)
  -- nobody has voted for `i` in the term it enters
  have hfresh : ∀ v t c, a.voted v t = some c → ¬(c = i ∧ t = a.term i + 1) := by
    rintro v t c hv ⟨rfl, rfl⟩
    have := (h.voted_le _ _ _ hv).2
    omega
  refine { h' with
    voted_le := fun v t c hv => ?_, clog_ok := fun j t => ?_, clog_term := fun j t e he => ?_,
    acked_clog := fun v t' c hv hel t k hk hka htt hterm hb => ?_,
    acked_llog := fun t' c hel => ?_ }
  · rcases set₂_eq_some hv with ⟨rfl, rfl, rfl⟩ | hv
    · simp
    · exact h'.voted_le v t c hv
  · dsimp only
    rw [set₂_apply]
    split
    · exact h.log_ok i
    · exact h.clog_ok j t
  · dsimp only at he
    rw [set₂_apply] at he
    split at he
    · rename_i heq
      obtain ⟨rfl, rfl⟩ := heq
      have := h.log_term j e he
      omega
    · exact h.clog_term j t e he
  · dsimp only
    rcases set₂_eq_some hv with ⟨rfl, rfl, rfl⟩ | hv
    · rw [set₂_apply, if_pos ⟨rfl, rfl⟩]
      exact h.acked_log v t k hka hb
    · rw [set₂_apply, if_neg (hfresh v t' c hv)]
      exact h.acked_clog v t' c hv hel t k hk hka htt hterm hb
  · obtain ⟨q, hq, hv⟩ := h.acked_llog t' c hel
    exact ⟨q, hq, fun v hvq => ⟨hext.voted v t' c (hv v hvq).1, (hv v hvq).2⟩⟩

/-- **Proof sketch.** Only the clause on candidates is new: the voter has what it
acknowledged, and a log that is up to date carries it over (`prefix_of_upToDate`). -/
lemma grant {c : N} (hfree : ∀ d, a.voted i (a.term i) = some d → d = c)
    (hc : a.term i ≤ a.term c) (hup : UpToDate (a.clog c (a.term i)) (a.log i)) :
    Inv Q { a with voted := set₂ a.voted i (a.term i) (some c) } := by
  have hext := extends_of_step h (Step.grant (Q := Q) c hfree hc hup)
  refine { h with
    voted_le := fun v t d hv => ?_,
    acked_clog := fun v t' d hv hel t k hk hka htt hterm hb => ?_,
    acked_llog := fun t' d hel => ?_ }
  · rcases set₂_eq_some hv with ⟨rfl, rfl, rfl⟩ | hv
    · exact ⟨le_rfl, hc⟩
    · exact h.voted_le v t d hv
  · rcases set₂_eq_some hv with ⟨rfl, rfl, rfl⟩ | hv
    · have hlog : (a.llog t).take k <+: a.log v := by
        refine h.acked_log v t k hka fun u htu hu hel' => ?_
        rcases Nat.lt_succ_iff_lt_or_eq.1 hu with hlt | rfl
        · exact hb u htu hlt hel'
        · exact absurd hel hel'
      exact h.prefix_of_upToDate hk (hka.trans (h.acked_le v t)) hterm (h.clog_ok c _) (h.log_ok v)
        (h.clog_term c _) hup hb hlog
    · exact h.acked_clog v t' d hv hel t k hk hka htt hterm hb
  · obtain ⟨q, hq, hv⟩ := h.acked_llog t' d hel
    exact ⟨q, hq, fun v hvq => ⟨hext.voted v t' d (hv v hvq).1, (hv v hvq).2⟩⟩

/-- **Proof sketch.** The new leader's log is the one it stood with, which has what the
voters acknowledged. Nothing was acknowledged or committed in the new leader's term yet. -/
lemma elect {q : Finset N} (hnew : a.elected (a.term i) = none)
    (hq : Q.isQuorum q) (hvotes : ∀ v ∈ q, a.voted v (a.term i) = some i)
    (hlog : a.log i = a.clog i (a.term i)) :
    Inv Q { a with
      elected := update a.elected (a.term i) (some i)
      llog := update a.llog (a.term i) (a.log i) } := by
  have hext := extends_of_step h (Step.elect q hnew hq hvotes hlog)
  set b : State N E := { a with
      elected := update a.elected (a.term i) (some i)
      llog := update a.llog (a.term i) (a.log i) } with hbdef
  have hllog : ∀ t, t ≠ a.term i → b.llog t = a.llog t := fun t ht =>
    update_of_ne ht _ _
  have hllog_self : b.llog (a.term i) = a.log i := update_self _ _ _
  have helec : ∀ t, t ≠ a.term i → b.elected t = a.elected t := fun t ht =>
    update_of_ne ht _ _
  have helec_self : b.elected (a.term i) = some i := update_self _ _ _
  have hunelected : ∀ t, b.elected t = none → t ≠ a.term i := by
    rintro t ht rfl
    rw [helec_self] at ht
    cases ht
  have hacked : ∀ v, a.acked v (a.term i) = 0 := fun v => by
    by_contra hne
    exact (h.acked_ok v _ (Nat.pos_of_ne_zero hne)).1 hnew
  have hlc : a.lcommit (a.term i) = 0 := by
    by_contra hne
    exact (h.committed_le_length (h.lcommit_ok _ (Nat.pos_of_ne_zero hne))).2 hnew
  -- what is acknowledged belongs to another term, whose leader's log is unchanged
  have hother : ∀ v t k, 0 < k → k ≤ a.acked v t → t ≠ a.term i := by
    rintro v t k hk hka rfl
    rw [hacked v] at hka
    omega
  have hback : ∀ {v t t' k}, k ≤ a.acked v t → HasBetween b t t' k → HasBetween a t t' k :=
    fun hka hb => hb.of_extends h hext (fun u hel => .inl (hllog u fun heq => hel (heq ▸ hnew)))
      (hka.trans (h.acked_le _ _))
  refine { h with
    leader_log := fun j hj => ?_, llog_nil := fun t ht => ?_,
    log_ok := fun j => (h.log_ok j).mono hext, clog_ok := fun j t => (h.clog_ok j t).mono hext,
    llog_ok := (forall_update_iff a.llog fun _ l => LogOk b l).2
      ⟨(h.log_ok i).mono hext, fun t _ => (h.llog_ok t).mono hext⟩,
    llog_term := (forall_update_iff a.llog fun t l => ∀ e ∈ l, Termed.term e ≤ t).2
      ⟨h.log_term i, fun t _ => h.llog_term t⟩,
    acked_ok := fun v t hpos => ?_, acked_log := fun v t k hk hb => ?_,
    acked_clog := fun v t' c hv hel t k hk hka htt hterm hb => ?_,
    acked_llog := fun t' c hel => ?_, lcommit_ok := fun t ht => (h.lcommit_ok t ht).mono h hext,
    leader_commit := fun j hj => ?_, commit_ok := fun j hj => ?_ }
  · rcases eq_or_ne (a.term j) (a.term i) with heq | hne
    · rw [heq] at hj ⊢
      rw [hllog_self, Option.some.inj (helec_self.symm.trans hj)]
    · rw [helec _ hne] at hj
      rw [hllog _ hne]
      exact h.leader_log j hj
  · have hne := hunelected t ht
    rw [helec t hne] at ht
    rw [hllog t hne]
    exact h.llog_nil t ht
  · obtain ⟨h1, h2, h3⟩ := h.acked_ok v t hpos
    exact ⟨hext.elected_ne h1, h2, h3.trans (hext.llog t).length_le⟩
  · rcases Nat.eq_zero_or_pos k with rfl | hpos
    · simp
    · have ht := hother v t k hpos hk
      rw [hllog t ht]
      exact h.acked_log v t k hk (hback hk hb)
  · have ht := hother v t k hk hka
    have ht' := hunelected t' hel
    rw [hllog t ht] at hterm ⊢
    rw [helec t' ht'] at hel
    exact h.acked_clog v t' c hv hel t k hk hka htt hterm (hback hka hb)
  · rcases eq_or_ne t' (a.term i) with rfl | hne
    · obtain rfl : i = c := Option.some.inj (helec_self.symm.trans hel)
      refine ⟨q, hq, fun v hv => ⟨hvotes v hv, fun t k hk hka htt hterm hb => ?_⟩⟩
      have ht := hother v t k hk hka
      change (b.llog t).take k <+: b.llog (a.term i)
      rw [hllog t ht] at hterm ⊢
      rw [hllog_self, hlog]
      exact h.acked_clog v _ i (hvotes v hv) hnew t k hk hka htt hterm (hback hka hb)
    · rw [helec t' hne] at hel
      obtain ⟨q', hq', hv⟩ := h.acked_llog t' c hel
      refine ⟨q', hq', fun v hvq => ⟨(hv v hvq).1, fun t k hk hka htt hterm hb => ?_⟩⟩
      have ht := hother v t k hk hka
      change (b.llog t).take k <+: b.llog t'
      rw [hllog t ht] at hterm ⊢
      rw [hllog t' hne]
      exact (hv v hvq).2 t k hk hka htt hterm (hback hka hb)
  · rcases eq_or_ne (a.term j) (a.term i) with heq | hne
    · rw [heq, hlc]
      exact Nat.zero_le _
    · rw [helec _ hne] at hj
      exact h.leader_commit j hj
  · obtain ⟨t, ht, hle, hlen, heq⟩ := h.commit_ok j hj
    have hne : t ≠ a.term i := by
      rintro rfl
      change 0 < a.commit j at hj
      omega
    refine ⟨t, ht, hle, hlen, ?_⟩
    rw [hllog t hne]
    exact heq

omit [DecidableEq N] in
/-- A committed prefix of a node's log is still a prefix of the merged log when the node
accepts from the leader of its term. -/
lemma take_commit_prefix_merge {k : ℕ} (hlead : a.elected (a.term i) ≠ none) :
    (a.log i).take (a.commit i) <+: merge (a.log i) ((a.llog (a.term i)).take k) := by
  rcases Nat.eq_zero_or_pos (a.commit i) with h0 | hpos
  · simp [h0]
  · obtain ⟨t, ht, hle, -, heq⟩ := h.commit_ok i hpos
    refine prefix_merge (List.take_prefix _ _) ?_
    rw [heq]
    exact List.prefix_or_prefix_of_prefix (h.take_lcommit_isPrefix hle ht hlead)
      (List.take_prefix _ _)

/-- **Proof sketch.** The leader's log gains an entry of its own term, so a prefix of another
leader's log that fits into the longer log fits into the shorter one already
(`HasBetween.of_extends`). -/
lemma append {e : E} (hlead : a.elected (a.term i) = some i)
    (he : Termed.term e = a.term i) :
    Inv Q { a with
      log := update a.log i (a.log i ++ [e])
      llog := update a.llog (a.term i) (a.log i ++ [e])
      acked := set₂ a.acked i (a.term i) ((a.log i).length + 1) } := by
  have hext := extends_of_step h (Step.append (Q := Q) e hlead he)
  set b : State N E := { a with
      log := update a.log i (a.log i ++ [e])
      llog := update a.llog (a.term i) (a.log i ++ [e])
      acked := set₂ a.acked i (a.term i) ((a.log i).length + 1) } with hbdef
  have hlog_self : b.log i = a.log i ++ [e] := update_self _ _ _
  have hlog : ∀ j, j ≠ i → b.log j = a.log j := fun j hj => update_of_ne hj _ _
  have hgrow : ∀ j, a.log j <+: b.log j :=
    (forall_update_iff a.log fun j l => a.log j <+: l).2
      ⟨prefix_append _ _, fun _ _ => prefix_rfl⟩
  have hllog_self : b.llog (a.term i) = a.log i ++ [e] := update_self _ _ _
  have hllog : ∀ t, t ≠ a.term i → b.llog t = a.llog t := fun t ht =>
    update_of_ne ht _ _
  have hllead := h.leader_log i hlead
  have hel : a.elected (a.term i) ≠ none := by rw [hlead]; simp
  have hnew : ∀ u, a.elected u ≠ none →
      b.llog u = a.llog u ∨ ∃ e, Termed.term e = u ∧ b.llog u = a.llog u ++ [e] := by
    intro u _
    rcases eq_or_ne u (a.term i) with rfl | hu
    · exact .inr ⟨e, he, by rw [hllog_self, hllead]⟩
    · exact .inl (hllog u hu)
  have hack : ∀ v t, b.acked v t ≠ a.acked v t → v = i ∧ t = a.term i :=
    fun v t hne => eq_of_set₂_ne hne
  have hack_self : b.acked i (a.term i) = (a.log i).length + 1 := if_pos ⟨rfl, rfl⟩
  obtain ⟨hclog, hacll⟩ := acked_clog_of_quiet h ⟨hext, rfl, rfl, rfl⟩ hnew hack
  have hokl : LogOk b (a.log i ++ [e]) := by
    intro k e' hk
    rcases Nat.lt_or_ge k (a.log i).length with hlt | hge
    · rw [getElem?_append_left hlt] at hk
      rw [take_append_of_le_length (by omega)]
      exact (h.log_ok i).mono hext k e' hk
    · have hk0 : k = (a.log i).length := by
        have := (List.getElem?_eq_some_iff.1 hk).1
        simp only [length_append, length_singleton] at this
        omega
      subst hk0
      have hee : e' = e := by simpa using hk.symm
      subst hee
      rw [he]
      refine ⟨hel, ?_⟩
      rw [hllog_self]
      exact List.take_prefix _ _
  have hterms : ∀ e' ∈ a.log i ++ [e], Termed.term e' ≤ a.term i :=
    forall_mem_append.2 ⟨h.log_term i, forall_mem_singleton.2 he.le⟩
  refine { h with
    leader_log := fun j hj => ?_, llog_nil := fun t ht => ?_,
    log_ok := (forall_update_iff a.log fun _ l => LogOk b l).2
      ⟨hokl, fun j _ => (h.log_ok j).mono hext⟩,
    clog_ok := fun j t => (h.clog_ok j t).mono hext,
    llog_ok := (forall_update_iff a.llog fun _ l => LogOk b l).2
      ⟨hokl, fun t _ => (h.llog_ok t).mono hext⟩,
    log_term := (forall_update_iff a.log
      fun j l => ∀ e ∈ l, Termed.term e ≤ a.term j).2 ⟨hterms, fun j _ => h.log_term j⟩,
    llog_term := (forall_update_iff a.llog fun t l => ∀ e ∈ l, Termed.term e ≤ t).2
      ⟨hterms, fun t _ => h.llog_term t⟩,
    acked_ok := fun v t hpos => ?_, acked_log := fun v t k hk hb => ?_,
    acked_clog := hclog, acked_llog := hacll,
    lcommit_ok := fun t ht => (h.lcommit_ok t ht).mono h hext, commit_ok := fun j hj => ?_ }
  · rcases eq_or_ne j i with rfl | hji
    · rw [hlog_self, hllog_self]
    · have hne : a.term j ≠ a.term i := by
        intro heq
        rw [heq, hlead] at hj
        exact hji (Option.some.inj hj).symm
      rw [hlog j hji, hllog _ hne]
      exact h.leader_log j hj
  · have hne : t ≠ a.term i := by rintro rfl; exact hel ht
    rw [hllog t hne]
    exact h.llog_nil t ht
  · change a.elected t ≠ none ∧ t ≤ a.term v ∧ b.acked v t ≤ (b.llog t).length
    rcases eq_or_ne (b.acked v t) (a.acked v t) with heq | hne
    · rw [heq] at hpos ⊢
      obtain ⟨h1, h2, h3⟩ := h.acked_ok v t hpos
      exact ⟨h1, h2, h3.trans (hext.llog t).length_le⟩
    · obtain ⟨rfl, rfl⟩ := hack v t hne
      rw [hack_self, hllog_self]
      simp [hel]
  · by_cases hself : v = i ∧ t = a.term i
    · obtain ⟨rfl, rfl⟩ := hself
      rw [hlog_self, hllog_self]
      exact List.take_prefix _ _
    · have heq : b.acked v t = a.acked v t := if_neg hself
      rw [heq] at hk
      rcases Nat.eq_zero_or_pos k with rfl | hpos
      · simp
      · have hlen := hk.trans (h.acked_le v t)
        rw [take_llog_eq hext hlen]
        exact (h.acked_log v t k hk (hb.of_extends h hext hnew hlen)).trans (hgrow v)
  · change 0 < a.commit j at hj
    obtain ⟨t, ht, hle, hlen, heq⟩ := h.commit_ok j hj
    have hllen := hle.trans (h.committed_le_length (h.lcommit_ok t (by omega))).1
    refine ⟨t, ht, hle, hlen.trans (hgrow j).length_le, ?_⟩
    rw [take_eq_of_isPrefix (hgrow j) hlen, take_llog_eq hext hllen, heq]

/-- **Proof sketch.** What the node has acknowledged before, and what it knows to be
committed, is a prefix of both its log and the leader's log, so the merged log has it
(`prefix_merge`). -/
lemma accept {k : ℕ} (hlead : a.elected (a.term i) ≠ none)
    (hother : a.elected (a.term i) ≠ some i) (hk : k ≤ (a.llog (a.term i)).length) :
    Inv Q { a with
      log := update a.log i (merge (a.log i) ((a.llog (a.term i)).take k))
      acked := set₂ a.acked i (a.term i) (max (a.acked i (a.term i)) k) } := by
  have hext := extends_of_step h (Step.accept (Q := Q) k hlead hother hk)
  set b : State N E := { a with
      log := update a.log i (merge (a.log i) ((a.llog (a.term i)).take k))
      acked := set₂ a.acked i (a.term i) (max (a.acked i (a.term i)) k) } with hbdef
  have hlog_self : b.log i = merge (a.log i) ((a.llog (a.term i)).take k) :=
    update_self _ _ _
  have hlog : ∀ j, j ≠ i → b.log j = a.log j := fun j hj => update_of_ne hj _ _
  have hack : ∀ v t, b.acked v t ≠ a.acked v t → v = i ∧ t = a.term i :=
    fun v t hne => eq_of_set₂_ne hne
  have hack_self : b.acked i (a.term i) = max (a.acked i (a.term i)) k := if_pos ⟨rfl, rfl⟩
  obtain ⟨hclog, hacll⟩ := acked_clog_of_quiet h ⟨hext, rfl, rfl, rfl⟩ (fun _ _ => .inl rfl) hack
  have hmem : ∀ e ∈ b.log i, e ∈ a.log i ∨ e ∈ a.llog (a.term i) := by
    intro e he
    rw [hlog_self, merge] at he
    split at he
    · exact .inl he
    · exact .inr (mem_of_mem_take he)
  refine { h with
    leader_log := fun j hj => ?_,
    log_ok := (forall_update_iff a.log fun _ l => LogOk b l).2
      ⟨?_, fun j _ => (h.log_ok j).mono hext⟩,
    log_term := fun j e he => ?_,
    acked_ok := fun v t hpos => ?_, acked_log := fun v t m hm hb => ?_,
    acked_clog := hclog, acked_llog := hacll,
    lcommit_ok := fun t ht => (h.lcommit_ok t ht).mono h hext, commit_ok := fun j hj => ?_ }
  · have hji : j ≠ i := by rintro rfl; exact hother hj
    rw [hlog j hji]
    exact h.leader_log j hj
  · rw [merge]
    split
    · exact (h.log_ok i).mono hext
    · exact (LogOk.of_isPrefix (h.llog_ok _) (List.take_prefix _ _)).mono hext
  · rcases eq_or_ne j i with rfl | hji
    · rcases hmem e he with he | he
      · exact h.log_term j e he
      · exact h.llog_term _ e he
    · rw [hlog j hji] at he
      exact h.log_term j e he
  · rcases eq_or_ne (b.acked v t) (a.acked v t) with heq | hne
    · rw [heq] at hpos ⊢
      exact h.acked_ok v t hpos
    · obtain ⟨rfl, rfl⟩ := hack v t hne
      rw [hack_self]
      exact ⟨hlead, le_rfl, max_le (h.acked_le v _) hk⟩
  · change HasBetween a t (a.term v + 1) m at hb
    by_cases hself : v = i ∧ t = a.term i
    · obtain ⟨rfl, rfl⟩ := hself
      rw [hack_self] at hm
      rw [hlog_self]
      rcases le_total m k with hmk | hkm
      · exact (take_prefix_take_left hmk).trans (prefix_merge_self _ _)
      · rcases le_max_iff.1 hm with hm | hm
        · exact prefix_merge (h.acked_log v _ m hm hb) (.inr (take_prefix_take_left hkm))
        · exact (take_prefix_take_left hm).trans (prefix_merge_self _ _)
    · have heq : b.acked v t = a.acked v t := if_neg hself
      rw [heq] at hm
      have hold := h.acked_log v t m hm hb
      rcases eq_or_ne v i with rfl | hvi
      · rw [hlog_self]
        rcases Nat.eq_zero_or_pos m with rfl | hpos
        · simp
        · -- the term of the acknowledgement is before the current one
          have hle := (h.acked_ok v t (by omega)).2.1
          have hlt : t < a.term v := by
            refine lt_of_le_of_ne hle fun heq => hself ⟨rfl, heq⟩
          refine prefix_merge hold ( List.prefix_or_prefix_of_prefix ?_ (List.take_prefix _ _))
          exact hb _ hlt (by omega) hlead
      · rw [hlog v hvi]
        exact hold
  · obtain ⟨t, ht, hle, hlen, heq⟩ := h.commit_ok j hj
    rcases eq_or_ne j i with rfl | hji
    · have hpre := h.take_commit_prefix_merge (k := k) hlead
      rw [← hlog_self] at hpre
      have hl : ((a.log j).take (a.commit j)).length = a.commit j := length_take_of_le hlen
      refine ⟨t, ht, hle, hl ▸ hpre.length_le, ?_⟩
      rw [take_eq_of_isPrefix hpre hl.ge, take_take, min_self, heq]
    · rw [hlog j hji]
      exact ⟨t, ht, hle, hlen, heq⟩

lemma leaderCommit {k : ℕ} {q : Finset N}
    (hlead : a.elected (a.term i) = some i) (hnew : a.commit i < k)
    (hk : k ≤ (a.llog (a.term i)).length) (ht : termAt (a.llog (a.term i)) k = a.term i)
    (hq : Q.isQuorum q) (hack : ∀ v ∈ q, k ≤ a.acked v (a.term i)) :
    Inv Q { a with
      commit := update a.commit i k
      lcommit := update a.lcommit (a.term i) k } := by
  have hext := extends_of_step h (Step.leaderCommit k q hlead hnew hk ht hq hack)
  set b : State N E := { a with
      commit := update a.commit i k
      lcommit := update a.lcommit (a.term i) k } with hbdef
  have hcom_self : b.commit i = k := update_self _ _ _
  have hcom : ∀ j, j ≠ i → b.commit j = a.commit j := fun j hj => update_of_ne hj _ _
  have hlc_self : b.lcommit (a.term i) = k := update_self _ _ _
  refine { h with
    lcommit_ok := fun t hpos => ?_, leader_commit := fun j hj => ?_,
    commit_ok := fun j hj => ?_ }
  · rcases eq_or_ne t (a.term i) with rfl | hne
    · rw [hlc_self]
      exact ⟨by omega, ht, q, hq, hack⟩
    · have heq : b.lcommit t = a.lcommit t := update_of_ne hne _ _
      rw [heq] at hpos ⊢
      exact h.lcommit_ok t hpos
  · rcases eq_or_ne (a.term j) (a.term i) with heq | hne
    · have hji : i = j := by
        rw [heq, hlead] at hj
        exact Option.some.inj hj
      subst hji
      rw [hlc_self, hcom_self]
    · have hji : j ≠ i := by rintro rfl; exact hne rfl
      have heq : b.lcommit (a.term j) = a.lcommit (a.term j) := update_of_ne hne _ _
      rw [hcom j hji, heq]
      exact h.leader_commit j hj
  · rcases eq_or_ne j i with rfl | hji
    · rw [hcom_self]
      refine ⟨a.term j, le_rfl, hlc_self.ge, ?_, ?_⟩
      · rw [h.leader_log j hlead]
        exact hk
      · rw [h.leader_log j hlead]
    · rw [hcom j hji] at hj ⊢
      obtain ⟨t, htle, hle, hlen, heq⟩ := h.commit_ok j hj
      exact ⟨t, htle, hle.trans (hext.lcommit t), hlen, heq⟩

omit [DecidableEq E] in
lemma learnCommit {k t : ℕ} (ht : t ≤ a.term i) (hk : k ≤ a.lcommit t)
    (hlen : k ≤ (a.log i).length) (hlog : (a.log i).take k = (a.llog t).take k) :
    Inv Q { a with commit := update a.commit i (max (a.commit i) k) } := by
  set b : State N E :=
    { a with commit := update a.commit i (max (a.commit i) k) } with hbdef
  have hcom_self : b.commit i = max (a.commit i) k := update_self _ _ _
  have hcom : ∀ j, j ≠ i → b.commit j = a.commit j := fun j hj => update_of_ne hj _ _
  refine { h with leader_commit := fun j hj => ?_, commit_ok := fun j hj => ?_ }
  · have hle : a.commit ≤ b.commit := le_update_self_iff.2 (le_max_left _ _)
    exact (h.leader_commit j hj).trans (hle j)
  · rcases eq_or_ne j i with rfl | hji
    · rw [hcom_self] at hj ⊢
      rcases le_total (a.commit j) k with hle | hle
      · rw [max_eq_right hle]
        exact ⟨t, ht, hk, hlen, hlog⟩
      · rw [max_eq_left hle] at hj ⊢
        exact h.commit_ok j hj
    · rw [hcom j hji] at hj ⊢
      exact h.commit_ok j hj

/-! ## All actions -/

/-- **The invariant is preserved by every action.** -/
theorem step (hs : Step Q a i b) : Inv Q b := by
  cases hs with
  | adopt t ht => exact h.adopt ht
  | campaign => exact h.campaign
  | grant c hfree hc hup => exact h.grant hfree hc hup
  | elect q hnew hq hvotes hlog => exact h.elect hnew hq hvotes hlog
  | append e hlead he => exact h.append hlead he
  | accept k hlead hother hk => exact h.accept hlead hother hk
  | leaderCommit k q hlead hnew hk ht hq hack =>
    exact h.leaderCommit hlead hnew hk ht hq hack
  | learnCommit k t ht hk hlen hlog => exact h.learnCommit ht hk hlen hlog

end

end Inv

/-- Finitely many actions of node `i`: the invariant holds afterwards, the history is
extended and the other nodes are as before. -/
lemma Steps.spec (hs : Steps Q i a b) (h : Inv Q a) :
    Inv Q b ∧ Extends a b ∧ ∀ j, j ≠ i → SameNode a b j := by
  induction hs with
  | refl => exact ⟨h, Extends.refl a, fun j _ => ⟨rfl, rfl, rfl, fun _ => rfl, fun _ h => h⟩⟩
  | tail _ hstep ih =>
    obtain ⟨h1, h2, h3⟩ := ih
    refine ⟨h1.step hstep, h2.trans (extends_of_step h1 hstep), fun j hj => ?_⟩
    have hsame := sameNode_of_step hstep hj
    exact ⟨hsame.term.trans (h3 j hj).term, hsame.log.trans (h3 j hj).log,
      hsame.commit.trans (h3 j hj).commit, fun t => (hsame.voted t).trans ((h3 j hj).voted t),
      fun t ht => (h3 j hj).elected t (hsame.elected t ht)⟩

end Consensus
