import Yukino.Rpc.Futures

set_option autoImplicit false

/-!
# The table of pending calls

`Client.Invoke` and `Client.InvokeAsync` send through a `TCPClient` and stop waiting when their
time is up: they complete the future themselves, and leave its entry in the table.

## Main definitions

* `TCPClient.use` — a step of the client, or the end of a call's time.
* `TCPClient.answered` — no future is completed from outside while it has an entry.

## Main results

* `TCPClient.Waiting.use` — what one step keeps.
* `TCPClient.pending_unfinished` — in runs with such steps only, an entry is that of a future that
  is not complete.
* `TCPClient.pending_after_timeout` — a call that times out leaves its entry.
-/

namespace Yukino.Rpc

namespace TCPClient

inductive UseEvent
  | client (e : Event)
  /-- The context of `Invoke` or the timer of `InvokeAsync` is done before the future. -/
  | expire (i : ℕ) (err : String)

def use (s : TCPClient) : UseEvent → Option TCPClient
  | .client e => s.step e
  | .expire i err =>
    if (s.calls i).pc = .returned ∧ (s.calls i).kind = .unary then
      some (s.modify i fun c => c.done (.error (.text err)))
    else none

/-- A call that expires has no entry any more. -/
def answered (s : TCPClient) : UseEvent → Bool
  | .client _ => true
  | .expire i _ => s.pending.lookup (s.calls i).seq ≠ some i

/-- The call has not stored its future yet. -/
def Pc.fresh : Pc → Bool
  | .idle | .started | .numbered => true
  | _ => false

/-- An entry is that of a future that is not complete, but for the one that `shutdown` is about to
delete. -/
structure Waiting (s : TCPClient) : Prop where
  numbering : s.Numbering
  entries : s.Entries
  fresh : ∀ i, Pc.fresh (s.calls i).pc = true →
    (s.calls i).complete = false ∧ (∀ r, ¬s.Completes i r) ∧ ∀ k key, s.entry k key ≠ some i
  gone : ∀ i r, s.reader = .finishing i r → ∀ key, s.entry .unary key ≠ some i
  waiting : ∀ key i, s.entry .unary key = some i →
    (s.calls i).complete = false ∨ ∃ remaining, s.sweep = .deleting .unary remaining key

variable {s s' : TCPClient} {i j key : ℕ} {k : Kind} {r : Result} {e : UseEvent}

lemma waiting_init : Waiting {} where
  numbering := numbering_init
  entries := entries_init
  fresh i _ := by
    refine ⟨rfl, fun r h => ?_, fun k key h => ?_⟩
    · obtain h | ⟨_, _, _, h, -⟩ := h <;> cases h
    · cases k <;> cases h
  gone _ _ h := by cases h
  waiting _ _ h := by cases h

/-- A new entry is that of a call that has just stored its future. -/
lemma step_entry {e : Event} (hs : s.step e = some s') (he : s'.entry k key = some i) :
    s.entry k key = some i ∨ (s.calls i).pc = .numbered ∧ (s'.calls i).pc = .stored := by
  obtain ⟨j, hsend⟩ | hread | hsweep := step_cases hs
  · cases hsend with
    | store hpc =>
      rw [goto_entry, entry_Store] at he
      split at he
      · cases he
        exact .inr ⟨hpc, by rw [goto_calls_self]⟩
      · exact .inl he
    | withdraw | giveUp =>
      rw [goto_entry, entry_Delete] at he
      split at he
      · cases he
      · exact .inl he
    | _ => exact .inl ((entry_congr rfl rfl k key).symm.trans he)
  · exact .inl (hread.entry he)
  · exact .inl (hsweep.entry he)

lemma step_fresh {e : Event} (hs : s.step e = some s') (hf : Pc.fresh (s'.calls i).pc = true) :
    Pc.fresh (s.calls i).pc = true := by
  obtain ⟨j, hsend⟩ | hread | hsweep := step_cases hs
  · by_cases hij : i = j
    · subst hij
      obtain ⟨hpc, -⟩ | ⟨hnext, -⟩ := hsend.own
      · rw [hpc]
        rfl
      · generalize (s.calls i).pc = a at hnext ⊢
        generalize (s'.calls i).pc = b at hnext hf
        cases hnext with
        | start => rfl
        | _ => cases hf
    · rw [hsend.sends.others i hij] at hf
      exact hf
  · rw [hread.quiet.pc] at hf
    exact hf
  · rw [hsweep.quiet.pc] at hf
    exact hf

/-- Who completes a call took it from a map. -/
lemma step_completes {e : Event} (hs : s.step e = some s') (hr : s'.Completes i r) :
    (∃ r, s.Completes i r) ∨ ∃ k key, s.entry k key = some i := by
  obtain hr | ⟨k, remaining, key, hv, -⟩ := hr
  · obtain hr | ⟨k, m, hentry, -⟩ := step_finishing hs hr
    · exact .inl ⟨r, .inl hr⟩
    · exact .inr ⟨k, _, hentry⟩
  · obtain ⟨j, hsend⟩ | hread | hsweep := step_cases hs
    · rw [hsend.sends.sweep] at hv
      exact .inl ⟨_, .inr ⟨k, remaining, key, hv, rfl⟩⟩
    · rw [hread.sweep] at hv
      exact .inl ⟨_, .inr ⟨k, remaining, key, hv, rfl⟩⟩
    · exact .inr ⟨k, key, hsweep.visiting hv⟩

/-- `shutdown` deletes the key under which it has completed a call. -/
lemma step_complete {e : Event} (hs : s.step e = some s') (i : ℕ) :
    (s'.calls i).complete = (s.calls i).complete ∨ (∃ r, s.reader = .finishing i r) ∨
      ∃ k remaining key, s.sweep = .visiting k remaining key i ∧
        s'.sweep = .deleting k remaining key := by
  obtain ⟨j, hsend⟩ | hread | hsweep := step_cases hs
  · left
    by_cases hij : i = j
    · rw [hij, hsend.sends.complete]
    · rw [hsend.sends.others i hij]
  · cases hread with
    | take k m j => exact .inl (by rw [Delete, setTable_calls])
    | finish j r hreader =>
      by_cases hij : i = j
      · exact .inr (.inl ⟨r, hij ▸ hreader⟩)
      · exact .inl (by rw [modify_calls_ne _ _ _ hij])
    | push j | consume j =>
      left
      by_cases hij : i = j
      · rw [hij, modify_calls_self]
      · rw [modify_calls_ne _ _ _ hij]
    | _ => exact .inl rfl
  · cases hsweep with
    | done k remaining key j hv =>
      by_cases hij : i = j
      · exact .inr (.inr ⟨k, remaining, key, hij ▸ hv, rfl⟩)
      · exact .inl (by rw [modify_calls_ne _ _ _ hij])
    | delete k remaining key => exact .inl (by rw [Delete, setTable_calls])
    | _ => exact .inl rfl

lemma step_deleting {e : Event} {remaining : List ℕ} (hs : s.step e = some s')
    (h : s.sweep = .deleting k remaining key) :
    s'.sweep = .deleting k remaining key ∨ s'.entry k key = none := by
  obtain ⟨j, hsend⟩ | hread | hsweep := step_cases hs
  · exact .inl (hsend.sends.sweep.trans h)
  · exact .inl (hread.sweep.trans h)
  · cases hsweep with
    | delete k' remaining' key' h' =>
      cases h'.symm.trans h
      exact .inr ((entry_Delete ..).trans (if_pos ⟨rfl, rfl⟩))
    | _ => next h' => cases h'.symm.trans h

/-- **A step of the client.** -/
lemma Waiting.client (h : s.Waiting) {e : Event} (hs : s.step e = some s') : s'.Waiting := by
  have hfresh : ∀ i, Pc.fresh (s.calls i).pc = true →
      (s'.calls i).complete = false ∧ ∀ r, ¬s'.Completes i r := by
    intro i hi
    obtain ⟨hc, hcomp, hnone⟩ := h.fresh i hi
    refine ⟨?_, fun r hr => ?_⟩
    · obtain ⟨hsame, -⟩ | ⟨r, hr, -⟩ := (step_settles hs i).cases
      · rw [hsame, hc]
      · exact absurd hr (hcomp r)
    · obtain ⟨r, hr⟩ | ⟨k, key, he⟩ := step_completes hs hr
      · exact hcomp r hr
      · exact hnone k key he
  refine ⟨h.numbering.step hs, h.entries.step h.numbering hs, fun i hi => ?_, ?_, ?_⟩
  · refine ⟨(hfresh i (step_fresh hs hi)).1, (hfresh i (step_fresh hs hi)).2, fun k key he => ?_⟩
    obtain he | ⟨-, hpc⟩ := step_entry hs he
    · exact (h.fresh i (step_fresh hs hi)).2.2 k key he
    · rw [hpc] at hi
      cases hi
  · intro i r hr key he
    obtain hold | ⟨hpc, -⟩ := step_entry hs he
    · obtain hr | ⟨k, m, hentry, hnone, -⟩ := step_finishing hs hr
      · exact h.gone i r hr key hold
      · -- the call has one entry, and that is the one `readLoop` has taken
        obtain ⟨hk, hkey, -⟩ := h.entries.entry _ _ i hentry
        obtain ⟨hk', hkey', -⟩ := h.entries.entry _ _ i hold
        rw [← hk, hk', ← hkey, hkey', he] at hnone
        cases hnone
    · exact (hfresh i (by rw [hpc]; rfl)).2 r (.inl hr)
  · intro key i he
    obtain hold | ⟨hpc, -⟩ := step_entry hs he
    · obtain hc | ⟨remaining, hdel⟩ := h.waiting key i hold
      · obtain hsame | ⟨r, hr⟩ | ⟨k, remaining, key', hv, hdel⟩ := step_complete hs i
        · exact .inl (hsame.trans hc)
        · exact absurd hold (h.gone i r hr key)
        · obtain ⟨hk, hkey, -⟩ := h.entries.visiting _ _ _ i hv
          obtain ⟨hk', hkey', -⟩ := h.entries.entry _ _ i hold
          rw [← hk, hk', ← hkey, hkey'] at hdel
          exact .inr ⟨remaining, hdel⟩
      · obtain hdel | hnone := step_deleting hs hdel
        · exact .inr ⟨remaining, hdel⟩
        · cases hnone.symm.trans he
    · exact .inl (hfresh i (by rw [hpc]; rfl)).1

/-- **The time of a call is up** when its entry has been taken. -/
lemma Waiting.expire (h : s.Waiting) (hpc : (s.calls i).pc = .returned)
    (hgone : s.pending.lookup (s.calls i).seq ≠ some i) (r : Result) :
    Waiting (s.modify i fun c => c.done r) := by
  have hq : Quiet s (s.modify i fun c => c.done r) := quiet_update rfl rfl (done_quiet r _)
  have hentry : ∀ k key, entry (s.modify i fun c => c.done r) k key = s.entry k key :=
    entry_congr rfl rfl
  refine ⟨h.numbering.quiet hq, ⟨fun k key j hj => ?_, fun k remaining key j hj => ?_⟩,
    fun j hj => ?_, fun j r' hr key he => h.gone j r' hr key (hentry .unary key ▸ he), ?_⟩
  · exact (h.entries.entry k key j (hentry k key ▸ hj)).quiet hq
  · exact (h.entries.visiting k remaining key j hj).quiet hq
  · rw [hq.pc] at hj
    have hji : j ≠ i := by
      rintro rfl
      rw [hpc] at hj
      cases hj
    obtain ⟨hc, hcomp, hnone⟩ := h.fresh j hj
    rw [modify_calls_ne _ _ _ hji]
    exact ⟨hc, hcomp, fun k key he => hnone k key (hentry k key ▸ he)⟩
  · intro key j he
    rw [hentry] at he
    have hji : j ≠ i := by
      rintro rfl
      rw [(h.entries.entry _ _ j he).2.1] at hgone
      exact hgone he
    rw [modify_calls_ne _ _ _ hji]
    exact h.waiting key j he

/-- **One step.** -/
lemma Waiting.use (h : s.Waiting) (hok : s.answered e = true) (hs : s.use e = some s') :
    s'.Waiting := by
  cases e with
  | client e => exact h.client hs
  | expire i err =>
    obtain ⟨hpc, hs⟩ := Option.ite_none_right_eq_some.1 hs
    cases hs
    exact h.expire hpc.1 (of_decide_eq_true hok) _

/-- **The table holds unfinished calls.** In every run in which the time of a call is up only after
its entry was taken, an entry is that of a future that is not complete, unless `shutdown` has just
completed it and is about to delete the entry. -/
theorem pending_unfinished (es : List UseEvent) (hok : Runs.along use answered {} es = true)
    (hrun : Runs.run use {} es = some s) (key i : ℕ)
    (hsweep : ∀ remaining, s.sweep ≠ .deleting .unary remaining key)
    (hentry : s.pending.lookup key = some i) : (s.calls i).complete = false := by
  have hwaiting : s.Waiting :=
    Runs.along_invariant (fun _ _ _ h hok hs => h.use hok hs) waiting_init hok hrun
  exact (hwaiting.waiting key i hentry).resolve_right fun ⟨remaining, hdel⟩ => hsweep remaining hdel

/-- A call expires whose response has just been read, while another one is waiting. -/
def expireFirst : List UseEvent :=
  (sendOne 0 ++ sendOne 1 ++ [Event.read (.read { requestID := 1 })]).map .client ++
    [.expire 0 "context deadline exceeded"]

theorem pending_unfinished_second :
    ∃ s, Runs.run use {} expireFirst = some s ∧ s.pending.lookup 2 = some 1 ∧
      (s.calls 0).complete = true ∧ (s.calls 1).complete = false :=
  ⟨_, rfl, rfl, rfl, pending_unfinished expireFirst (by decide +kernel) rfl 2 1
    (fun _ h => by cases h) rfl⟩

/-- A call that times out completes its future and leaves it in the table. -/
theorem pending_after_timeout :
    ∃ s, Runs.run use {} ((sendOne 0).map .client ++ [.expire 0 "context deadline exceeded"]) =
      some s ∧ s.pending.lookup 1 = some 0 ∧ (s.calls 0).complete = true ∧ s.sweep = .idle :=
  ⟨_, rfl, rfl, rfl, rfl⟩

end TCPClient

end Yukino.Rpc
