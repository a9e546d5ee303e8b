import Yukino.Rpc.TcpClient

set_option autoImplicit false

/-!
# Futures are neither lost nor crossed

Every interleaving of calls, `readLoop` and `shutdown` on one connection completes a future at most
once, with the response of its own number or with the error of the connection. After `shutdown` no
future that was returned is left behind: a call stores its future before it looks at `closed` again,
so either `Range` meets the future or the call takes it back.

## Main results

* `TCPClient.futures_settled` — the two statements for every run.
* `TCPClient.future_replaced` — a future is lost when the counter has come round.

## Design

The invariants are about one call at a time: `Numbering` gives each call its own number, `Sourced`
says where a completion comes from, and `Kept` says who is going to complete a future: `readLoop`,
which has taken it from its map, or `shutdown`, whose `Range` will visit its key.
-/

namespace Yukino.Rpc

open List Function AList Bool

namespace TCPClient

variable {s s' : TCPClient} {i : ℕ}

/-! ## Steps that leave the calls where they are -/

/-- No call has moved on, and none has a new number. -/
structure Quiet (s s' : TCPClient) : Prop where
  pc : ∀ i, (s'.calls i).pc = (s.calls i).pc
  kind : ∀ i, (s'.calls i).kind = (s.calls i).kind
  msg : ∀ i, (s'.calls i).msg = (s.calls i).msg
  ticket : ∀ i, (s'.calls i).ticket = (s.calls i).ticket
  seq : s'.seq = s.seq

lemma quiet_of_calls (hcalls : s'.calls = s.calls) (hseq : s'.seq = s.seq) : Quiet s s' where
  pc i := by rw [hcalls]
  kind i := by rw [hcalls]
  msg i := by rw [hcalls]
  ticket i := by rw [hcalls]
  seq := hseq

variable {c : Call} {e : Event} {k : Kind} {a b : Pc} {key j : ℕ} {remaining : List ℕ} {r : Result}

/-- A change of one call that keeps its place and its number. -/
lemma quiet_update (hcalls : s'.calls = update s.calls i c)
    (hseq : s'.seq = s.seq) (h : c.pc = (s.calls i).pc ∧ c.kind = (s.calls i).kind ∧
      c.msg = (s.calls i).msg ∧ c.ticket = (s.calls i).ticket) : Quiet s s' := by
  have hcall : ∀ j, (s'.calls j).pc = (s.calls j).pc ∧ (s'.calls j).kind = (s.calls j).kind ∧
      (s'.calls j).msg = (s.calls j).msg ∧ (s'.calls j).ticket = (s.calls j).ticket := by
    intro j
    rw [hcalls]
    by_cases hj : j = i
    · rw [hj, update_self]
      exact h
    · rw [update_of_ne hj]
      exact ⟨rfl, rfl, rfl, rfl⟩
  exact ⟨fun j => (hcall j).1, fun j => (hcall j).2.1, fun j => (hcall j).2.2.1,
    fun j => (hcall j).2.2.2, hseq⟩

lemma done_quiet (r : Result) (c : Call) : (c.done r).pc = c.pc ∧ (c.done r).kind = c.kind ∧
    (c.done r).msg = c.msg ∧ (c.done r).ticket = c.ticket := by
  unfold Call.done
  split_ifs
  · exact ⟨rfl, rfl, rfl, rfl⟩
  · exact ⟨rfl, rfl, rfl, rfl⟩

lemma done_complete (r : Result) (c : Call) : (c.done r).complete = true := by
  unfold Call.done
  split
  · next h => exact h
  · rfl

/-- A step of `readLoop`, or of the consumer of a stream. -/
inductive ReadStep (s : TCPClient) : TCPClient → Prop
  | drop (m : Message) : ReadStep s { s with received := s.received ++ [m] }
  | take (k : Kind) (m : Message) (i : ℕ) (hreader : s.reader = .reading)
      (hentry : s.entry k m.requestID = some i) :
      ReadStep s { s.Delete k m.requestID with
        reader := .finishing i m.outcome, received := s.received ++ [m] }
  | load (m : Message) (i : ℕ) (hreader : s.reader = .reading) :
      ReadStep s { s with reader := .pushing i m.body, received := s.received ++ [m] }
  | stop (hreader : s.reader = .reading) : ReadStep s { s with reader := .stopped }
  | finish (i : ℕ) (r : Result) (hreader : s.reader = .finishing i r) :
      ReadStep s (modify { s with reader := .reading } i fun c => c.done r)
  | push (i : ℕ) (body : Bytes) (hreader : s.reader = .pushing i body) :
      ReadStep s (modify { s with reader := .reading } i fun c =>
        { c with frames := c.frames ++ [body] })
  | skip (i : ℕ) (body : Bytes) (hreader : s.reader = .pushing i body) :
      ReadStep s { s with reader := .reading }
  | consume (i : ℕ) (frames : List Bytes) (cancelled : Bool) :
      ReadStep s (s.modify i fun c => { c with frames := frames, cancelled := cancelled })

lemma readStep_take (k : Kind) (m : Message) (hreader : s.reader = .reading) :
    ReadStep s (take { s with received := s.received ++ [m] } k m) := by
  unfold take
  split
  · next i hentry =>
    cases k with
    | unary => exact .take .unary m i hreader hentry
    | stream => exact .take .stream m i hreader hentry
  · exact .drop m

lemma stepRead_cases {e : ReadEvent} (h : s.stepRead e = some s') : ReadStep s s' := by
  unfold stepRead at h
  split at h
  · split at h <;> cases h
    next m hreader =>
      unfold route
      split
      · split
        · exact .load m _ hreader
        · exact .drop m
      · exact readStep_take .stream m hreader
      · exact readStep_take .stream m hreader
      · exact readStep_take .unary m hreader
  · split at h <;> cases h
    next hreader => exact .stop hreader
  · split at h <;> cases h
    next hreader => exact .finish _ _ hreader
  · split at h
    · next hreader =>
      split at h <;> cases h
      exact .push _ _ hreader
    · cases h
  · split at h
    · next hreader =>
      split at h <;> cases h
      exact .skip _ _ hreader
    · cases h

/-- A step of `shutdown`. -/
inductive SweepStep (s : TCPClient) : TCPClient → Prop
  | begin (err : String) (h : s.sweep = .idle) :
      SweepStep s { s with sweep := .closing, err := err }
  | closeConn (h : s.sweep = .closing) :
      SweepStep s { s with connOpen := false, sweep := .starting .unary }
  | range (k : Kind) (h : s.sweep = .starting k) :
      SweepStep s { s with sweep := .ranging k (s.table k).keys }
  | visit (k : Kind) (remaining : List ℕ) (key i : ℕ) (hentry : s.entry k key = some i)
      (h : s.sweep = .ranging k remaining) :
      SweepStep s { s with sweep := .visiting k (remaining.filter (· ≠ key)) key i }
  | miss (k : Kind) (remaining : List ℕ) (key : ℕ) (hentry : s.entry k key = none)
      (h : s.sweep = .ranging k remaining) :
      SweepStep s { s with sweep := .ranging k (remaining.filter (· ≠ key)) }
  | done (k : Kind) (remaining : List ℕ) (key i : ℕ)
      (h : s.sweep = .visiting k remaining key i) :
      SweepStep s (modify { s with sweep := .deleting k remaining key } i fun c =>
        c.done (.error (.text s.err)))
  | delete (k : Kind) (remaining : List ℕ) (key : ℕ) (h : s.sweep = .deleting k remaining key) :
      SweepStep s (Delete { s with sweep := .ranging k remaining } k key)
  | next (h : s.sweep = .ranging .unary []) : SweepStep s { s with sweep := .starting .stream }
  | finish (h : s.sweep = .ranging .stream []) : SweepStep s { s with sweep := .finished }

lemma stepShutdown_cases {e : ShutdownEvent} (h : s.stepShutdown e = some s') : SweepStep s s' := by
  unfold stepShutdown at h
  split at h
  · split at h <;> cases h
    next hsweep => exact .begin _ hsweep
  · split at h <;> cases h
    next hsweep => exact .closeConn hsweep
  · split at h <;> cases h
    next hsweep => exact .range _ hsweep
  · split at h
    · next hsweep =>
      split at h <;> cases h
      · next hentry => exact .visit _ _ _ _ hentry hsweep
      · next hentry => exact .miss _ _ _ hentry hsweep
    · cases h
  · split at h <;> cases h
    next hsweep => exact .done _ _ _ _ hsweep
  · split at h <;> cases h
    next hsweep => exact .delete _ _ _ hsweep
  · split at h <;> cases h
    · next hsweep => exact .next hsweep
    · next hsweep => exact .finish hsweep

lemma ReadStep.quiet (h : ReadStep s s') : Quiet s s' := by
  cases h with
  | drop m => exact quiet_of_calls rfl rfl
  | take k m i => exact quiet_of_calls (setTable_calls ..) (setTable_seq ..)
  | load | stop => exact quiet_of_calls rfl rfl
  | finish i r => exact quiet_update rfl rfl (done_quiet _ _)
  | push i body => exact quiet_update rfl rfl ⟨rfl, rfl, rfl, rfl⟩
  | skip i body => exact quiet_of_calls rfl rfl
  | consume i frames cancelled => exact quiet_update rfl rfl ⟨rfl, rfl, rfl, rfl⟩

lemma SweepStep.quiet (h : SweepStep s s') : Quiet s s' := by
  cases h with
  | done k remaining key i => exact quiet_update rfl rfl (done_quiet _ _)
  | delete k remaining key => exact quiet_of_calls (setTable_calls ..) (setTable_seq ..)
  | _ => exact quiet_of_calls rfl rfl

/-! ## Steps of a call -/

/-- A step of a call. -/
inductive SendStep (s : TCPClient) (i : ℕ) : TCPClient → Prop
  | start (kind : Kind) (msg : Message) (hpc : (s.calls i).pc = .idle) :
      SendStep s i (s.modify i fun c => { c with kind := kind, msg := msg, pc := .started })
  | refuse (kind : Kind) (msg : Message) (hpc : (s.calls i).pc = .idle) :
      SendStep s i (s.modify i fun c => { c with kind := kind, msg := msg, pc := .refused })
  | nextSeq (hpc : (s.calls i).pc = .started) :
      SendStep s i (modify { s with seq := s.seq + 1 } i fun c =>
        { c with ticket := s.seq + 1, pc := .numbered })
  | store (hpc : (s.calls i).pc = .numbered) :
      SendStep s i ((s.Store (s.calls i).kind (s.calls i).seq i).goto i .stored)
  | close (hpc : (s.calls i).pc = .stored) : SendStep s i (s.goto i .closing)
  | check (hpc : (s.calls i).pc = .stored) (hopen : s.closed = false) :
      SendStep s i (s.goto i .checked)
  | withdraw (hpc : (s.calls i).pc = .closing) :
      SendStep s i ((s.Delete (s.calls i).kind (s.calls i).seq).goto i .refused)
  | retain (hpc : (s.calls i).pc = .closing)
      (hentry : s.entry (s.calls i).kind (s.calls i).seq = none) :
      SendStep s i (s.goto i .checked)
  | write (hpc : (s.calls i).pc = .checked) : SendStep s i (s.goto i .returned)
  | fail (hpc : (s.calls i).pc = .checked) : SendStep s i (s.goto i .writeFailed)
  | giveUp (hpc : (s.calls i).pc = .writeFailed) :
      SendStep s i ((s.Delete (s.calls i).kind (s.calls i).seq).goto i .refused)

/-- One case for each branch of `stepSend`. -/
lemma stepSend_cases {e : SendEvent} (h : s.stepSend i e = some s') : SendStep s i s' := by
  unfold stepSend at h
  split at h
  · split at h <;> cases h
    next hpc =>
      split
      · exact .refuse _ _ hpc
      · exact .start _ _ hpc
  · split at h <;> cases h
    next hpc => exact .nextSeq hpc
  · split at h <;> cases h
    next hpc => exact .store hpc
  · split at h <;> cases h
    next hpc =>
      split
      · exact .close hpc
      · next hopen => exact .check hpc (eq_false_iff.2 hopen)
  · split at h
    · next hpc =>
      split at h <;> cases h
      · exact .withdraw hpc
      · next hentry => exact .retain hpc (Option.not_isSome_iff_eq_none.1 hentry)
    · cases h
  · split at h <;> cases h
    next hpc =>
      split
      · exact .write hpc.1
      · exact .fail hpc.1
  · split at h <;> cases h
    next hpc => exact .giveUp hpc

/-- **The steps of a client**: a call, `readLoop` or `shutdown` takes a step. -/
lemma step_cases (h : s.step e = some s') :
    (∃ i, SendStep s i s') ∨ ReadStep s s' ∨ SweepStep s s' := by
  unfold step at h
  cases e with
  | send i e => exact .inl ⟨i, stepSend_cases h⟩
  | read e => exact .inr (.inl (stepRead_cases h))
  | shutdown e => exact .inr (.inr (stepShutdown_cases h))
  | recv i =>
    dsimp only at h
    split at h <;> cases h
    exact .inr (.inl (.consume i _ (s.calls i).cancelled))
  | cancel i =>
    cases h
    exact .inr (.inl (.consume i (s.calls i).frames true))

/-- The call has its number. -/
def Pc.numbered : Pc → Bool
  | .idle | .started | .refused => false
  | _ => true

/-- What a step of a call leaves alone. -/
structure Sends (s s' : TCPClient) (i : ℕ) : Prop where
  others : ∀ j, j ≠ i → s'.calls j = s.calls j
  complete : (s'.calls i).complete = (s.calls i).complete
  completions : (s'.calls i).completions = (s.calls i).completions
  entry : ∀ k key, s'.entry k key = s.entry k key ∨
    k = (s.calls i).kind ∧ key = (s.calls i).seq ∧ Pc.numbered (s.calls i).pc = true ∧
      ∀ j, s'.entry k key = some j → j = i
  reader : s'.reader = s.reader
  sweep : s'.sweep = s.sweep
  err : s'.err = s.err
  received : s'.received = s.received

/-- A step of a call that leaves the maps alone. -/
lemma sends_update (hcalls : s'.calls = update s.calls i c)
    (hc : c.complete = (s.calls i).complete ∧ c.completions = (s.calls i).completions)
    (htables : s'.pending = s.pending ∧ s'.streams = s.streams)
    (hrest : s'.reader = s.reader ∧ s'.sweep = s.sweep ∧ s'.err = s.err ∧
      s'.received = s.received) : Sends s s' i where
  others j hj := by rw [hcalls, update_of_ne hj]
  complete := by rw [hcalls, update_self, hc.1]
  completions := by rw [hcalls, update_self, hc.2]
  entry k key := .inl (entry_congr htables.1 htables.2 k key)
  reader := hrest.1
  sweep := hrest.2.1
  err := hrest.2.2.1
  received := hrest.2.2.2

/-- A step of a call that changes a map at the number of the call. -/
lemma sends_setTable {t : Table} {pc : Pc} (hk : k = (s.calls i).kind)
    (hpc : Pc.numbered (s.calls i).pc = true)
    (hne : ∀ key ≠ (s.calls i).seq, t.lookup key = (s.table k).lookup key)
    (hself : ∀ j, t.lookup (s.calls i).seq = some j → j = i) :
    Sends s ((s.setTable k t).goto i pc) i where
  others j hj := by
    unfold goto
    rw [modify_calls_ne _ _ _ hj, setTable_calls]
  complete := by
    unfold goto
    rw [modify_calls_self, setTable_calls]
  completions := by
    unfold goto
    rw [modify_calls_self, setTable_calls]
  entry k' key := by
    rw [goto_entry, entry_setTable]
    split_ifs with hk'
    · by_cases hkey : key = (s.calls i).seq
      · exact .inr ⟨hk'.trans hk, hkey, hpc, hkey ▸ hself⟩
      · exact .inl (hk' ▸ hne key hkey)
    · exact .inl rfl
  reader := setTable_reader ..
  sweep := setTable_sweep ..
  err := setTable_err ..
  received := setTable_received ..

lemma sends_Delete (hpc : Pc.numbered (s.calls i).pc = true) (pc : Pc) :
    Sends s ((s.Delete (s.calls i).kind (s.calls i).seq).goto i pc) i := by
  refine sends_setTable rfl hpc (fun _ => lookup_erase_ne) ?_
  rw [lookup_erase]
  nofun

lemma sends_Store (hpc : Pc.numbered (s.calls i).pc = true) (pc : Pc) :
    Sends s ((s.Store (s.calls i).kind (s.calls i).seq i).goto i pc) i := by
  refine sends_setTable rfl hpc (fun _ => lookup_insert_ne) ?_
  rw [lookup_insert]
  exact fun j hj => (Option.some.inj hj).symm

lemma SendStep.sends (h : SendStep s i s') : Sends s s' i := by
  cases h with
  | store hpc => exact sends_Store (by rw [hpc]; rfl) _
  | withdraw hpc | giveUp hpc => exact sends_Delete (by rw [hpc]; rfl) _
  | _ => exact sends_update rfl ⟨rfl, rfl⟩ ⟨rfl, rfl⟩ ⟨rfl, rfl, rfl, rfl⟩

/-- A call moves on to its next place, other than by getting its number. -/
inductive Next : Pc → Pc → Prop
  | start : Next .idle .started
  | refuse : Next .idle .refused
  | store : Next .numbered .stored
  | close : Next .stored .closing
  | check : Next .stored .checked
  | withdraw : Next .closing .refused
  | retain : Next .closing .checked
  | write : Next .checked .returned
  | fail : Next .checked .writeFailed
  | giveUp : Next .writeFailed .refused

/-- What a step of a call changes: it gives the call its number, or moves it on. -/
lemma SendStep.own (h : SendStep s i s') :
    ((s.calls i).pc = .started ∧ (s'.calls i).pc = .numbered ∧
      (s'.calls i).ticket = s.seq + 1 ∧ s'.seq = s.seq + 1 ∧
      (s'.calls i).kind = (s.calls i).kind ∧ (s'.calls i).msg = (s.calls i).msg) ∨
    (Next (s.calls i).pc (s'.calls i).pc ∧ (s'.calls i).ticket = (s.calls i).ticket ∧
      s'.seq = s.seq ∧ ((s.calls i).pc ≠ .idle →
        (s'.calls i).kind = (s.calls i).kind ∧ (s'.calls i).msg = (s.calls i).msg)) := by
  cases h with
  | start kind msg hpc | refuse kind msg hpc =>
    rw [modify_calls_self, hpc]
    exact .inr ⟨by constructor, rfl, rfl, fun hne => (hne rfl).elim⟩
  | nextSeq hpc =>
    rw [modify_calls_self]
    exact .inl ⟨hpc, rfl, rfl, rfl, rfl, rfl⟩
  | store hpc =>
    rw [goto_calls_self, hpc, Store, setTable_calls]
    exact .inr ⟨.store, rfl, setTable_seq .., fun _ => ⟨rfl, rfl⟩⟩
  | withdraw hpc | giveUp hpc =>
    rw [goto_calls_self, hpc, Delete, setTable_calls]
    exact .inr ⟨by constructor, rfl, setTable_seq .., fun _ => ⟨rfl, rfl⟩⟩
  | close hpc | check hpc | retain hpc | write hpc | fail hpc =>
    rw [goto_calls_self, hpc]
    exact .inr ⟨by constructor, rfl, rfl, fun _ => ⟨rfl, rfl⟩⟩

/-! ## The numbers of the calls -/

/-- The call is before the step that gives it its number. -/
def Pc.unnumbered : Pc → Bool
  | .idle | .started => true
  | _ => false

lemma Next.unnumbered (h : Next a b) (hb : Pc.unnumbered b = true) : Pc.unnumbered a = true := by
  cases h with
  | start => rfl
  | _ => cases hb

lemma Next.numbered (h : Next a b) (hb : Pc.numbered b = true) : Pc.numbered a = true := by
  cases h with
  | start | refuse | withdraw | giveUp => cases hb
  | _ => rfl

/-- Each call that has a number has its own. -/
structure Numbering (s : TCPClient) : Prop where
  fresh : ∀ i, Pc.unnumbered (s.calls i).pc = true → (s.calls i).ticket = 0
  pos : ∀ i, Pc.numbered (s.calls i).pc = true → 0 < (s.calls i).ticket
  le : ∀ i, (s.calls i).ticket ≤ s.seq
  unique : ∀ i j, 0 < (s.calls i).ticket → (s.calls i).ticket = (s.calls j).ticket → i = j

lemma numbering_init : Numbering {} where
  fresh _ _ := rfl
  pos _ h := by cases h
  le _ := le_rfl
  unique _ _ h := (Nat.lt_irrefl 0 h).elim

lemma Numbering.quiet (h : s.Numbering) (hq : Quiet s s') : s'.Numbering where
  fresh i := by
    rw [hq.pc, hq.ticket]
    exact h.fresh i
  pos i := by
    rw [hq.pc, hq.ticket]
    exact h.pos i
  le i := by
    rw [hq.ticket, hq.seq]
    exact h.le i
  unique i j := by
    rw [hq.ticket, hq.ticket]
    exact h.unique i j

/-- One call changes, and its number is its own if it has one. -/
lemma Numbering.update (h : s.Numbering) (hothers : ∀ j, j ≠ i → s'.calls j = s.calls j)
    (hseq : s.seq ≤ s'.seq)
    (hfresh : Pc.unnumbered (s'.calls i).pc = true → (s'.calls i).ticket = 0)
    (hpos : Pc.numbered (s'.calls i).pc = true → 0 < (s'.calls i).ticket)
    (hle : (s'.calls i).ticket ≤ s'.seq)
    (hunique : ∀ j, j ≠ i → 0 < (s'.calls i).ticket → (s'.calls i).ticket ≠ (s.calls j).ticket) :
    s'.Numbering where
  fresh j := by
    by_cases hj : j = i
    · rwa [hj]
    · rw [hothers j hj]
      exact h.fresh j
  pos j := by
    by_cases hj : j = i
    · rwa [hj]
    · rw [hothers j hj]
      exact h.pos j
  le j := by
    by_cases hj : j = i
    · rwa [hj]
    · rw [hothers j hj]
      exact (h.le j).trans hseq
  unique j l := by
    by_cases hj : j = i <;> by_cases hl : l = i
    · exact fun _ _ => hj.trans hl.symm
    · rw [hj, hothers l hl]
      exact fun hpos heq => absurd heq (hunique l hl hpos)
    · rw [hl, hothers j hj]
      exact fun hpos heq => absurd heq.symm (hunique j hj (heq ▸ hpos))
    · rw [hothers j hj, hothers l hl]
      exact h.unique j l

/-- **A call keeps its number**, once it has got one that is greater than those of all others. -/
lemma Numbering.send (h : s.Numbering) (hsend : SendStep s i s') : s'.Numbering := by
  have hothers := hsend.sends.others
  obtain ⟨hpc, hpc', hticket, hseq, -⟩ | ⟨hnext, hticket, hseq, -⟩ := hsend.own
  · refine h.update hothers (by omega) ?_ (fun _ => by omega) (by omega) fun j hj _ heq => ?_
    · rw [hpc']
      nofun
    · exact absurd (h.le j) (by omega)
  · refine h.update hothers hseq.ge ?_ ?_ ?_ fun j hj => ?_
    all_goals rw [hticket]
    · exact fun hun => h.fresh i (hnext.unnumbered hun)
    · exact fun hnum => h.pos i (hnext.numbered hnum)
    · exact hseq ▸ h.le i
    · exact fun hpos heq => hj (h.unique i j hpos heq).symm

lemma Numbering.step (h : s.Numbering) (hs : s.step e = some s') : s'.Numbering := by
  obtain ⟨i, hsend⟩ | hread | hsweep := step_cases hs
  · exact h.send hsend
  · exact h.quiet hread.quiet
  · exact h.quiet hsweep.quiet

/-- A call with its kind and its number. -/
def Own (s : TCPClient) (k : Kind) (key i : ℕ) : Prop :=
  (s.calls i).kind = k ∧ (s.calls i).seq = key ∧ 0 < (s.calls i).ticket

lemma own_self (h : 0 < (s.calls i).ticket) : s.Own (s.calls i).kind (s.calls i).seq i :=
  ⟨rfl, rfl, h⟩

/-- As long as the counter has not come round, a number belongs to one call. -/
lemma Own.unique {k' : Kind} (hi : s.Own k key i) (hj : s.Own k' key j)
    (hn : s.Numbering) (hseq : s.seq < 2 ^ 64) : i = j := by
  apply hn.unique i j hi.2.2
  have hseqs := hi.2.1.trans hj.2.1.symm
  unfold Call.seq at hseqs
  rw [Nat.mod_eq_of_lt (Nat.lt_of_le_of_lt (hn.le i) hseq),
    Nat.mod_eq_of_lt (Nat.lt_of_le_of_lt (hn.le j) hseq)] at hseqs
  exact hseqs

lemma Own.quiet (h : s.Own k key i) (hq : Quiet s s') : s'.Own k key i := by
  unfold Own Call.seq at h ⊢
  rw [hq.kind, hq.ticket]
  exact h

lemma Own.send (h : s.Own k key j) (hn : s.Numbering)
    (hsend : SendStep s i s') : s'.Own k key j := by
  unfold Own Call.seq at h ⊢
  by_cases hj : j = i
  · subst hj
    have hnum : Pc.unnumbered (s.calls j).pc = false :=
      eq_false_iff.2 fun hun => Nat.ne_of_gt h.2.2 (hn.fresh j hun)
    obtain ⟨hpc, -⟩ | ⟨-, hticket, -, hkind⟩ := hsend.own
    · rw [hpc] at hnum
      cases hnum
    · rw [hticket, (hkind fun hpc => by rw [hpc] at hnum; cases hnum).1]
      exact h
  · rw [hsend.sends.others j hj]
    exact h

/-- **A call keeps its number.** -/
lemma Own.step (h : s.Own k key i) (hn : s.Numbering)
    (hs : s.step e = some s') : s'.Own k key i := by
  obtain ⟨j, hsend⟩ | hread | hsweep := step_cases hs
  · exact h.send hn hsend
  · exact h.quiet hread.quiet
  · exact h.quiet hsweep.quiet

/-! ## The entries of the maps -/

/-- `readLoop` adds no entry. -/
lemma ReadStep.entry (h : ReadStep s s') (he : s'.entry k key = some i) :
    s.entry k key = some i := by
  cases h with
  | take k' m j =>
    have hdel : (s.Delete k' m.requestID).entry k key = some i :=
      (entry_congr rfl rfl k key).symm.trans he
    rw [entry_Delete] at hdel
    split at hdel
    · cases hdel
    · exact hdel
  | _ => exact (entry_congr rfl rfl k key).symm.trans he

/-- `shutdown` adds no entry. -/
lemma SweepStep.entry (h : SweepStep s s') (he : s'.entry k key = some i) :
    s.entry k key = some i := by
  cases h with
  | delete k' remaining key' =>
    rw [entry_Delete] at he
    split at he
    · cases he
    · exact (entry_congr rfl rfl k key).symm.trans he
  | _ => exact (entry_congr rfl rfl k key).symm.trans he

/-- The entries of the maps, and what `shutdown` has taken from them, are the calls of the keys. -/
structure Entries (s : TCPClient) : Prop where
  entry : ∀ k key i, s.entry k key = some i → s.Own k key i
  visiting : ∀ k remaining key i, s.sweep = .visiting k remaining key i → s.Own k key i

lemma entries_init : Entries {} where
  entry k key i h := by
    cases k <;> cases h
  visiting _ _ _ _ h := by cases h

lemma ReadStep.sweep (h : ReadStep s s') : s'.sweep = s.sweep := by
  cases h with
  | take k m i => exact setTable_sweep ..
  | _ => rfl

/-- What `shutdown` visits is an entry. -/
lemma SweepStep.visiting (h : SweepStep s s')
    (hv : s'.sweep = .visiting k remaining key i) : s.entry k key = some i := by
  cases h with
  | visit k' remaining' key' j hentry h =>
    cases hv
    exact hentry
  | delete k' remaining' key' h =>
    rw [Delete, setTable_sweep] at hv
    cases hv
  | _ => cases hv

/-- A step stores a call only under its own number, and a number once given stays. -/
lemma Entries.step (h : s.Entries) (hn : s.Numbering) (hs : s.step e = some s') : s'.Entries := by
  have hown : ∀ {k key i}, s.Own k key i → s'.Own k key i := fun ho => ho.step hn hs
  obtain ⟨i, hsend⟩ | hread | hsweep := step_cases hs
  · have hsends := hsend.sends
    constructor
    · intro k key j hj
      obtain hsame | ⟨rfl, rfl, hnum, hi⟩ := hsends.entry k key
      · exact hown (h.entry k key j (hsame ▸ hj))
      · obtain rfl := hi j hj
        exact hown ⟨rfl, rfl, hn.pos j hnum⟩
    · intro k remaining key j hj
      rw [hsends.sweep] at hj
      exact hown (h.visiting k remaining key j hj)
  · constructor
    · exact fun k key j hj => hown (h.entry k key j (hread.entry hj))
    · intro k remaining key j hj
      rw [hread.sweep] at hj
      exact hown (h.visiting k remaining key j hj)
  · constructor
    · exact fun k key j hj => hown (h.entry k key j (hsweep.entry hj))
    · exact fun k remaining key j hj => hown (h.entry k key j (hsweep.visiting hj))

/-! ## Where a completion comes from -/

/-- The result is that of a response with the number of the call. -/
def Answers (s : TCPClient) (i : ℕ) (r : Result) : Prop :=
  ∃ m ∈ s.received, m.requestID = (s.calls i).seq ∧ r = m.outcome

/-- The result is that of a response, or the error of the connection. -/
def From (s : TCPClient) (i : ℕ) (r : Result) : Prop :=
  s.Answers i r ∨ s.closed = true ∧ r = .error (.text s.err)

/-- What a step keeps of the messages and of the connection. -/
structure Grows (s s' : TCPClient) : Prop where
  received : ∀ m ∈ s.received, m ∈ s'.received
  closed : s.closed = true → s'.closed = true ∧ s'.err = s.err

lemma ReadStep.grows (h : ReadStep s s') : Grows s s' where
  received m hm := by
    cases h with
    | drop | take | load => exact mem_append_left _ hm
    | _ => exact hm
  closed hc := by
    unfold TCPClient.closed at hc ⊢
    rw [h.sweep]
    refine ⟨hc, ?_⟩
    cases h with
    | take k m i => exact setTable_err ..
    | _ => rfl

lemma SweepStep.grows (h : SweepStep s s') : Grows s s' where
  received m hm := by
    cases h with
    | delete k remaining key => exact (setTable_received ..).symm ▸ hm
    | _ => exact hm
  closed hc := by
    cases h with
    | begin err h =>
      unfold TCPClient.closed at hc
      rw [h] at hc
      cases hc
    | delete k remaining key h =>
      unfold TCPClient.closed Delete
      rw [setTable_sweep, setTable_err]
      exact ⟨rfl, rfl⟩
    | _ => exact ⟨rfl, rfl⟩

lemma Sends.grows (h : Sends s s' i) : Grows s s' where
  received m hm := h.received.symm ▸ hm
  closed hc := by
    unfold TCPClient.closed at hc ⊢
    rw [h.sweep]
    exact ⟨hc, h.err⟩

lemma step_grows (hs : s.step e = some s') : Grows s s' := by
  obtain ⟨i, hsend⟩ | hread | hsweep := step_cases hs
  · exact hsend.sends.grows
  · exact hread.grows
  · exact hsweep.grows

lemma Answers.step (h : s.Answers i r) (hpos : 0 < (s.calls i).ticket)
    (hn : s.Numbering) (hs : s.step e = some s') : s'.Answers i r := by
  obtain ⟨m, hm, hid, hr⟩ := h
  have hown := (own_self hpos).step hn hs
  exact ⟨m, (step_grows hs).received m hm, hid.trans hown.2.1.symm, hr⟩

lemma From.step (h : s.From i r) (hpos : 0 < (s.calls i).ticket)
    (hn : s.Numbering) (hs : s.step e = some s') : s'.From i r := by
  obtain h | ⟨hclosed, rfl⟩ := h
  · exact .inl (h.step hpos hn hs)
  · obtain ⟨hclosed', herr⟩ := (step_grows hs).closed hclosed
    exact .inr ⟨hclosed', by rw [herr]⟩

/-- Who is completing the call, and with what. -/
def Completes (s : TCPClient) (i : ℕ) (r : Result) : Prop :=
  s.reader = .finishing i r ∨
    ∃ k remaining key, s.sweep = .visiting k remaining key i ∧ r = .error (.text s.err)

/-- What a step does to the completions of a call. -/
def Settles (s s' : TCPClient) (i : ℕ) : Prop :=
  ((s'.calls i).complete = (s.calls i).complete ∧
    (s'.calls i).completions = (s.calls i).completions) ∨
  ∃ r, s.Completes i r ∧ s'.calls i = (s.calls i).done r

lemma settles_of_calls (h : s'.calls = s.calls) : Settles s s' i :=
  .inl (by rw [h]; exact ⟨rfl, rfl⟩)

lemma settles_update (hcalls : s'.calls = update s.calls j c)
    (hc : (c.complete = (s.calls j).complete ∧ c.completions = (s.calls j).completions) ∨
      ∃ r, s.Completes j r ∧ c = (s.calls j).done r) : Settles s s' i := by
  unfold Settles
  rw [hcalls]
  by_cases hi : i = j
  · rw [hi, update_self]
    exact hc
  · rw [update_of_ne hi]
    exact .inl ⟨rfl, rfl⟩

lemma step_settles (hs : s.step e = some s') (i : ℕ) : Settles s s' i := by
  obtain ⟨j, hsend⟩ | hread | hsweep := step_cases hs
  · have hsends := hsend.sends
    left
    by_cases hi : i = j
    · rw [hi]
      exact ⟨hsends.complete, hsends.completions⟩
    · rw [hsends.others i hi]
      exact ⟨rfl, rfl⟩
  · cases hread with
    | take k m j => exact settles_of_calls (setTable_calls ..)
    | finish j r hreader => exact settles_update rfl (.inr ⟨r, .inl hreader, rfl⟩)
    | push | consume => exact settles_update rfl (.inl ⟨rfl, rfl⟩)
    | _ => exact settles_of_calls rfl
  · cases hsweep with
    | done k remaining key j h =>
      exact settles_update rfl (.inr ⟨_, .inr ⟨k, remaining, key, h, rfl⟩, rfl⟩)
    | delete k remaining key => exact settles_of_calls (setTable_calls ..)
    | _ => exact settles_of_calls rfl

/-- A future is completed at most once, and its completion has a source. -/
structure Sourced (s : TCPClient) : Prop where
  count : ∀ i, (s.calls i).completions.length = (s.calls i).complete.toNat
  origin : ∀ i, ∀ r ∈ (s.calls i).completions, 0 < (s.calls i).ticket ∧ s.From i r
  reader : ∀ i r, s.reader = .finishing i r → 0 < (s.calls i).ticket ∧ s.Answers i r

lemma sourced_init : Sourced {} where
  count _ := rfl
  origin _ _ h := by cases h
  reader _ _ h := by cases h

/-- What `readLoop` has taken it took out of a map, for the message it has just read. -/
lemma step_finishing (hs : s.step e = some s')
    (h : s'.reader = .finishing i r) :
    s.reader = .finishing i r ∨
      ∃ k m, s.entry k m.requestID = some i ∧ s'.entry k m.requestID = none ∧
        m ∈ s'.received ∧ r = m.outcome := by
  obtain ⟨j, hsend⟩ | hread | hsweep := step_cases hs
  · exact .inl (hsend.sends.reader.symm.trans h)
  · cases hread with
    | take k m j hreader hentry =>
      cases h
      refine .inr ⟨k, m, hentry, ?_, mem_append_right _ (mem_singleton_self m), rfl⟩
      exact (entry_congr rfl rfl _ _).trans ((entry_Delete ..).trans (if_pos ⟨rfl, rfl⟩))
    | drop | consume => exact .inl h
    | _ => cases h
  · cases hsweep with
    | delete k remaining key =>
      rw [Delete, setTable_reader] at h
      exact .inl h
    | _ => exact .inl h

/-- A completed future stays as it is. -/
lemma Settles.cases (h : Settles s s' i) :
    ((s'.calls i).complete = (s.calls i).complete ∧
      (s'.calls i).completions = (s.calls i).completions) ∨
    ∃ r, s.Completes i r ∧ (s.calls i).complete = false ∧ (s'.calls i).complete = true ∧
      (s'.calls i).completions = (s.calls i).completions ++ [r] := by
  obtain h | ⟨r, hr, hc⟩ := h
  · exact .inl h
  · rw [hc]
    unfold Call.done
    split
    · exact .inl ⟨rfl, rfl⟩
    · next hcomplete => exact .inr ⟨r, hr, eq_false_iff.2 hcomplete, rfl, rfl⟩

lemma Sourced.waiting (h : s.Sourced) (hc : (s.calls i).complete = false) :
    (s.calls i).completions = [] := by
  rw [← length_eq_zero_iff, h.count, hc]
  rfl

lemma Sourced.completes (h : s.Sourced) (he : s.Entries) (hr : s.Completes i r) :
    0 < (s.calls i).ticket ∧ s.From i r := by
  obtain hr | ⟨k, remaining, key, hsweep, rfl⟩ := hr
  · exact (h.reader i r hr).imp_right .inl
  · refine ⟨(he.visiting k remaining key i hsweep).2.2, .inr ⟨?_, rfl⟩⟩
    unfold TCPClient.closed
    rw [hsweep]
    rfl

/-- A completion that is new comes from `readLoop` or `shutdown`, which have it from a map. -/
lemma Sourced.step (h : s.Sourced) (hn : s.Numbering) (he : s.Entries)
    (hs : s.step e = some s') : s'.Sourced := by
  have hpos : ∀ i, 0 < (s.calls i).ticket → 0 < (s'.calls i).ticket := fun i hi =>
    ((own_self hi).step hn hs).2.2
  constructor
  · intro i
    obtain ⟨hc, hcs⟩ | ⟨r, -, hc, hc', hcs⟩ := (step_settles hs i).cases
    · rw [hc, hcs]
      exact h.count i
    · rw [hc', hcs, h.waiting hc]
      rfl
  · intro i r hr
    have hold : 0 < (s.calls i).ticket ∧ s.From i r := by
      obtain ⟨-, hcs⟩ | ⟨r', hr', hc, -, hcs⟩ := (step_settles hs i).cases
      · rw [hcs] at hr
        exact h.origin i r hr
      · rw [hcs, h.waiting hc] at hr
        obtain rfl := mem_singleton.1 hr
        exact h.completes he hr'
    exact ⟨hpos i hold.1, hold.2.step hold.1 hn hs⟩
  · intro i r hr
    obtain hr | ⟨k, m, hentry, -, hm, rfl⟩ := step_finishing hs hr
    · obtain ⟨hi, hans⟩ := h.reader i r hr
      exact ⟨hpos i hi, hans.step hi hn hs⟩
    · have hown := (he.entry k _ i hentry).step hn hs
      exact ⟨hown.2.2, m, hm, hown.2.1.symm, rfl⟩

/-! ## Who is going to complete a future -/

/-- The keys that `Range` is still going to visit, or is visiting. -/
def Ahead (k : Kind) (key : ℕ) : Sweep → Prop
  | .idle | .closing | .starting .unary => True
  | .ranging .unary remaining | .deleting .unary remaining _ => k = .unary → key ∈ remaining
  | .visiting .unary remaining current _ => k = .unary → key = current ∨ key ∈ remaining
  | .starting .stream => k = .stream
  | .ranging .stream remaining | .deleting .stream remaining _ => k = .stream ∧ key ∈ remaining
  | .visiting .stream remaining current _ => k = .stream ∧ (key = current ∨ key ∈ remaining)
  | .finished => False

/-- `readLoop` has taken the call from its map. -/
def Held (s : TCPClient) (i : ℕ) : Prop :=
  ∃ r, s.reader = .finishing i r

/-- The call is in its map. -/
def InTable (s : TCPClient) (i : ℕ) : Prop :=
  s.entry (s.calls i).kind (s.calls i).seq = some i

/-- The call has stored its future, and does not take it back in its next step. -/
def Pc.waits : Pc → Bool
  | .stored | .closing | .checked | .returned => true
  | _ => false

/-- The call has looked at `closed` again. -/
def Pc.committed : Pc → Bool
  | .checked | .returned => true
  | _ => false

/-- **Someone is going to complete the call**: `readLoop` or, once the call has looked at `closed`
again, `shutdown`. -/
structure Kept (s : TCPClient) : Prop where
  waits : ∀ i, Pc.waits (s.calls i).pc = true → (s.calls i).complete = false →
    s.Held i ∨ s.InTable i ∧ (Pc.committed (s.calls i).pc = true →
      Ahead (s.calls i).kind (s.calls i).seq s.sweep)
  /-- What `shutdown` is about to delete it has completed. -/
  deleting : ∀ k remaining key, s.sweep = .deleting k remaining key →
    ∃ i, s.Own k key i ∧ (s.calls i).complete = true

lemma kept_init : Kept {} where
  waits _ h := by cases h
  deleting _ _ _ h := by cases h

/-! ### Steps of `readLoop` -/

lemma Quiet.inTable (h : Quiet s s') :
    s'.InTable i ↔ s'.entry (s.calls i).kind (s.calls i).seq = some i := by
  unfold InTable Call.seq
  rw [h.kind, h.ticket]

/-- `readLoop` completes what it has taken. -/
lemma ReadStep.held (h : ReadStep s s') (hc : (s'.calls i).complete = false) (hheld : s.Held i) :
    s'.Held i := by
  obtain ⟨r, hr⟩ := hheld
  cases h with
  | drop | consume => exact ⟨r, hr⟩
  | finish j r' hreader =>
    rw [hreader] at hr
    cases hr
    rw [modify_calls_self, done_complete] at hc
    cases hc
  | take _ _ _ hreader | load _ _ hreader | stop hreader | push _ _ hreader | skip _ _ hreader =>
    exact Reader.noConfusion (hreader.symm.trans hr)

/-- What leaves a map at a step of `readLoop`, `readLoop` has. -/
lemma ReadStep.inTable (h : ReadStep s s') (htable : s.InTable i) : s'.Held i ∨ s'.InTable i := by
  rw [h.quiet.inTable]
  unfold InTable at htable
  cases h with
  | take k m j hreader hentry =>
    by_cases hkey : (s.calls i).kind = k ∧ (s.calls i).seq = m.requestID
    · obtain ⟨rfl, hseq⟩ := hkey
      rw [hseq, hentry] at htable
      cases htable
      exact .inl ⟨_, rfl⟩
    · have hdel : (s.Delete k m.requestID).entry (s.calls i).kind (s.calls i).seq = some i := by
        rw [entry_Delete, if_neg hkey]
        exact htable
      exact .inr ((entry_congr rfl rfl _ _).trans hdel)
  | _ => exact .inr ((entry_congr rfl rfl _ _).trans htable)

/-! ### Steps of `shutdown` -/

lemma SweepStep.held (h : SweepStep s s') (hheld : s.Held i) : s'.Held i := by
  cases h with
  | delete k remaining key =>
    unfold Held Delete
    rw [setTable_reader]
    exact hheld
  | _ => exact hheld

/-- What `shutdown` deletes it has completed. -/
lemma SweepStep.inTable (h : SweepStep s s') (hk : s.Kept) (he : s.Entries) (hn : s.Numbering)
    (hseq : s.seq < 2 ^ 64) (hc : (s.calls i).complete = false) (htable : s.InTable i) :
    s'.InTable i := by
  rw [h.quiet.inTable]
  cases h with
  | delete k remaining key h =>
    obtain ⟨j, hj, hcj⟩ := hk.deleting k remaining key h
    rw [entry_Delete, if_neg]
    · exact (entry_congr rfl rfl _ _).trans htable
    · rintro ⟨rfl, rfl⟩
      rw [hj.unique (he.entry _ _ i htable) hn hseq, hc] at hcj
      cases hcj
  | _ => exact (entry_congr rfl rfl _ _).trans htable

lemma eq_or_mem_filter {key' : ℕ} (h : key ∈ remaining) :
    key = key' ∨ key ∈ remaining.filter (· ≠ key') := by
  by_cases hkey : key = key'
  · exact .inl hkey
  · exact .inr (mem_filter.2 ⟨h, decide_eq_true hkey⟩)

/-- `Range` passes no entry by, and `shutdown` completes what it visits. -/
lemma SweepStep.ahead (h : SweepStep s s') (he : s.Entries) (hn : s.Numbering)
    (hseq : s.seq < 2 ^ 64) (hc : (s'.calls i).complete = false) (htable : s.InTable i)
    (ha : Ahead (s.calls i).kind (s.calls i).seq s.sweep) :
    Ahead (s.calls i).kind (s.calls i).seq s'.sweep := by
  have hown := he.entry _ _ i htable
  unfold InTable TCPClient.entry at htable
  cases h with
  | begin | closeConn => trivial
  | range k h =>
    rw [h] at ha
    cases k with
    | unary =>
      intro hkind
      rw [hkind] at htable
      exact mem_keys.1 (lookup_isSome.1 (by rw [htable]; rfl))
    | stream =>
      refine ⟨ha, ?_⟩
      rw [show (s.calls i).kind = .stream from ha] at htable
      exact mem_keys.1 (lookup_isSome.1 (by rw [htable]; rfl))
  | visit k remaining key j hentry h =>
    rw [h] at ha
    cases k with
    | unary => exact fun hk => eq_or_mem_filter (ha hk)
    | stream => exact ⟨ha.1, eq_or_mem_filter ha.2⟩
  | miss k remaining key hentry h =>
    rw [h] at ha
    have hkey : (s.calls i).kind = k → (s.calls i).seq ≠ key := by
      rintro rfl rfl
      cases htable.symm.trans hentry
    cases k with
    | unary => exact fun hk => (eq_or_mem_filter (ha hk)).resolve_left (hkey hk)
    | stream => exact ⟨ha.1, (eq_or_mem_filter ha.2).resolve_left (hkey ha.1)⟩
  | done k remaining key j h =>
    have hkey : (s.calls i).kind = k → (s.calls i).seq ≠ key := by
      rintro rfl rfl
      obtain rfl := hown.unique (he.visiting _ _ _ j h) hn hseq
      rw [modify_calls_self, done_complete] at hc
      cases hc
    rw [h] at ha
    cases k with
    | unary => exact fun hk => (ha hk).resolve_left (hkey hk)
    | stream => exact ⟨ha.1, ha.2.resolve_left (hkey ha.1)⟩
  | delete k remaining key h =>
    rw [h] at ha
    cases k <;> exact ha
  | next h =>
    rw [h] at ha
    cases hkind : (s.calls i).kind with
    | unary => cases ha hkind
    | stream => rfl
  | finish h =>
    rw [h] at ha
    cases ha.2

/-! ### Steps of a call -/

lemma Sends.held (h : Sends s s' i) : s'.Held j ↔ s.Held j := by
  unfold Held
  rw [h.reader]

/-- A step of another call leaves the entry of a call. -/
lemma Sends.inTable (h : Sends s s' i) (hn : s.Numbering) (he : s.Entries)
    (hseq : s.seq < 2 ^ 64) (hj : j ≠ i) (htable : s.InTable j) : s'.InTable j := by
  unfold InTable at htable ⊢
  rw [h.others j hj]
  obtain hsame | ⟨hkind, hkey, hnum, -⟩ := h.entry (s.calls j).kind (s.calls j).seq
  · rw [hsame]
    exact htable
  · -- no other call has this number
    have hi : s.Own (s.calls j).kind (s.calls j).seq i := ⟨hkind.symm, hkey.symm, hn.pos i hnum⟩
    exact (hj ((he.entry _ _ j htable).unique hi hn hseq)).elim

/-- **A call hands its future on**: it stores it, and if it has found the connection closed, it
goes on only if someone else has taken the future. -/
lemma Kept.own (hk : s.Kept) (hsend : SendStep s i s') (hc : (s'.calls i).complete = false)
    (hwaits : Pc.waits (s'.calls i).pc = true) :
    s'.Held i ∨ s'.InTable i ∧ (Pc.committed (s'.calls i).pc = true →
      Ahead (s'.calls i).kind (s'.calls i).seq s'.sweep) := by
  rw [hsend.sends.complete] at hc
  rw [hsend.sends.sweep]
  unfold InTable
  cases hsend with
  | store hpc =>
    rw [goto_calls_self, Store, setTable_calls]
    exact .inr ⟨(entry_Store ..).trans (if_pos ⟨rfl, rfl⟩), by simp [Pc.committed]⟩
  | close hpc =>
    rw [goto_calls_self]
    exact (hk.waits i (by rw [hpc]; rfl) hc).imp_right fun h => ⟨h.1, by simp [Pc.committed]⟩
  | check hpc hopen =>
    rw [goto_calls_self]
    refine (hk.waits i (by rw [hpc]; rfl) hc).imp_right fun h => ⟨h.1, fun _ => ?_⟩
    rw [show s.sweep = .idle from of_not_not (of_decide_eq_false hopen)]
    trivial
  | retain hpc hentry =>
    rw [goto_calls_self]
    refine (hk.waits i (by rw [hpc]; rfl) hc).imp_right fun h => ?_
    cases h.1.symm.trans hentry
  | write hpc =>
    rw [goto_calls_self]
    exact (hk.waits i (by rw [hpc]; rfl) hc).imp_right fun h =>
      ⟨h.1, fun _ => h.2 (by rw [hpc]; rfl)⟩
  | start | refuse | nextSeq =>
    rw [modify_calls_self] at hwaits
    cases hwaits
  | withdraw | fail | giveUp =>
    rw [goto_calls_self] at hwaits
    cases hwaits

lemma step_seq_le (hs : s.step e = some s') : s.seq ≤ s'.seq := by
  obtain ⟨i, hsend⟩ | hread | hsweep := step_cases hs
  · obtain ⟨-, -, -, hseq, -⟩ | ⟨-, -, hseq, -⟩ := hsend.own
    · rw [hseq]
      exact Nat.le_succ _
    · rw [hseq]
  · rw [hread.quiet.seq]
  · rw [hsweep.quiet.seq]

/-- Another call cannot take the entry away, as its number differs. -/
lemma Kept.send (hk : s.Kept) (hn : s.Numbering) (he : s.Entries) (hseq : s.seq < 2 ^ 64)
    (hsend : SendStep s i s') : s'.Kept := by
  have hsends := hsend.sends
  constructor
  · intro j hpc hc
    by_cases hj : j = i
    · subst hj
      exact hk.own hsend hc hpc
    · rw [hsends.others j hj] at hpc hc ⊢
      rw [hsends.sweep]
      exact (hk.waits j hpc hc).imp hsends.held.2 fun h => ⟨hsends.inTable hn he hseq hj h.1, h.2⟩
  · intro k remaining key hsweep
    rw [hsends.sweep] at hsweep
    obtain ⟨j, hown, hc⟩ := hk.deleting k remaining key hsweep
    refine ⟨j, hown.send hn hsend, ?_⟩
    by_cases hj : j = i
    · rw [hj, hsends.complete, ← hj]
      exact hc
    · rw [hsends.others j hj]
      exact hc

lemma complete_of_settles (h : Settles s s' i) (hc : (s.calls i).complete = true) :
    (s'.calls i).complete = true := by
  obtain ⟨hsame, -⟩ | ⟨-, -, -, hc', -⟩ := h.cases
  · rw [hsame, hc]
  · exact hc'

lemma incomplete_of_settles (h : Settles s s' i) (hc : (s'.calls i).complete = false) :
    (s.calls i).complete = false :=
  eq_false_iff.2 fun hc' => by
    rw [complete_of_settles h hc'] at hc
    cases hc

lemma Kept.read (hk : s.Kept) (hread : ReadStep s s') (hsettles : ∀ i, Settles s s' i) :
    s'.Kept := by
  have hq := hread.quiet
  constructor
  · intro i hpc hc
    unfold Call.seq
    rw [hq.pc] at hpc
    rw [hq.pc, hq.kind, hq.ticket, hread.sweep]
    obtain hheld | ⟨htable, hahead⟩ := hk.waits i hpc (incomplete_of_settles (hsettles i) hc)
    · exact .inl (hread.held hc hheld)
    · exact (hread.inTable htable).imp_right fun h => ⟨h, hahead⟩
  · intro k remaining key hsweep
    rw [hread.sweep] at hsweep
    obtain ⟨i, hown, hc⟩ := hk.deleting k remaining key hsweep
    exact ⟨i, hown.quiet hq, complete_of_settles (hsettles i) hc⟩

/-- `shutdown` completes what it visits before it deletes it. -/
lemma SweepStep.deleting (h : SweepStep s s') (he : s.Entries)
    (hsweep : s'.sweep = .deleting k remaining key) :
    ∃ i, s.Own k key i ∧ (s'.calls i).complete = true := by
  cases h with
  | done k' remaining' key' i h =>
    cases hsweep
    refine ⟨i, he.visiting _ _ _ i h, ?_⟩
    rw [modify_calls_self, done_complete]
  | delete k' remaining' key' h =>
    rw [Delete, setTable_sweep] at hsweep
    cases hsweep
  | _ => cases hsweep

lemma Kept.sweep (hk : s.Kept) (hn : s.Numbering) (he : s.Entries) (hseq : s.seq < 2 ^ 64)
    (hsweep : SweepStep s s') (hsettles : ∀ i, Settles s s' i) : s'.Kept := by
  have hq := hsweep.quiet
  constructor
  · intro i hpc hc
    have hc' := incomplete_of_settles (hsettles i) hc
    unfold Call.seq
    rw [hq.pc] at hpc
    rw [hq.pc, hq.kind, hq.ticket]
    exact (hk.waits i hpc hc').imp hsweep.held fun ⟨htable, hahead⟩ =>
      ⟨hsweep.inTable hk he hn hseq hc' htable,
        fun hpc' => hsweep.ahead he hn hseq hc htable (hahead hpc')⟩
  · intro k remaining key h
    obtain ⟨i, hown, hc⟩ := hsweep.deleting he h
    exact ⟨i, hown.quiet hq, hc⟩

/-! ## Every run -/

/-- The invariant of a client. -/
structure Invariant (s : TCPClient) : Prop where
  numbering : s.Numbering
  entries : s.Entries
  sourced : s.Sourced
  kept : s.seq < 2 ^ 64 → s.Kept

lemma invariant_init : Invariant {} :=
  ⟨numbering_init, entries_init, sourced_init, fun _ => kept_init⟩

lemma Invariant.step (h : s.Invariant) (hs : s.step e = some s') : s'.Invariant where
  numbering := h.numbering.step hs
  entries := h.entries.step h.numbering hs
  sourced := h.sourced.step h.numbering h.entries hs
  kept hseq := by
    have hseq := Nat.lt_of_le_of_lt (step_seq_le hs) hseq
    have hsettles := step_settles hs
    have hk := h.kept hseq
    obtain ⟨i, hsend⟩ | hread | hsweep := step_cases hs
    · exact hk.send h.numbering h.entries hseq hsend
    · exact hk.read hread hsettles
    · exact hk.sweep h.numbering h.entries hseq hsweep hsettles

/-- `readLoop` has taken a future or a stream from its map, and has not completed it yet. -/
def finishing (s : TCPClient) : Bool :=
  match s.reader with
  | .finishing _ _ => true
  | _ => false

/-- **Futures are neither lost nor crossed.** In every run a future is completed at most once, with
the response of its number or with the error of the connection. When `shutdown` has finished and
`readLoop` is not just completing a future, every future that was returned is complete, as long as
the counter has not come round. -/
theorem futures_settled {es : List Event} (hrun : Runs.run step {} es = some s) :
    (∀ i, (s.calls i).completions.length ≤ 1 ∧
      ∀ r ∈ (s.calls i).completions,
        (∃ m ∈ s.received, m.requestID = (s.calls i).seq ∧ r = m.outcome) ∨
        s.closed = true ∧ r = .error (.text s.err)) ∧
    (s.sweep = .finished → s.finishing = false → s.seq < 2 ^ 64 →
      ∀ i, (s.calls i).pc = .returned → (s.calls i).complete = true) := by
  have hinv : s.Invariant :=
    Runs.invariant (fun _ _ _ h hs => h.step hs) invariant_init hrun
  refine ⟨fun i => ⟨hinv.sourced.count i ▸ toNat_le _,
    fun r hr => (hinv.sourced.origin i r hr).2⟩, ?_⟩
  intro hsweep hreader hseq i hpc
  by_contra hc
  obtain ⟨r, hr⟩ | ⟨-, hahead⟩ :=
    (hinv.kept hseq).waits i (by rw [hpc]; rfl) (eq_false_iff.2 hc)
  · unfold finishing at hreader
    rw [hr] at hreader
    cases hreader
  · rw [hsweep, hpc] at hahead
    exact hahead rfl

/-! ## Runs on one call -/

/-- A call of `SendAsync` up to its return. -/
def sendOne (i : ℕ) : List Event :=
  [.send i (.begin .unary {}), .send i .nextSeq, .send i .store, .send i .check,
    .send i (.write true)]

/-- A `shutdown` that finds both maps empty. -/
def sweepEmpty : List Event :=
  [.shutdown (.begin "connection closed"), .shutdown .closeConn, .shutdown .range,
    .shutdown .rangeEnd, .shutdown .range, .shutdown .rangeEnd]

/-- A `shutdown` that finds the number `1` in the map of the futures. -/
def sweepFirst : List Event :=
  [.shutdown (.begin "connection closed"), .shutdown .closeConn, .shutdown .range,
    .shutdown (.visit 1), .shutdown .done, .shutdown .delete, .shutdown .rangeEnd,
    .shutdown .range, .shutdown .rangeEnd]

/-- Of two calls, the second gets its response, and `shutdown` completes the first. -/
def swept : List Event :=
  sendOne 0 ++ sendOne 1 ++ [.read (.read { requestID := 2, body := [7] }), .read .finish] ++
    sweepFirst

theorem futures_settled_swept :
    ∃ s, Runs.run step {} swept = some s ∧
      (s.calls 0).completions = [.error (.text "connection closed")] ∧
      (s.calls 1).completions = [.ok [7]] ∧
      ∀ i, (s.calls i).pc = .returned → (s.calls i).complete = true := by
  obtain ⟨s, hs, hsweep, hreader, hseq, hfirst, hsecond⟩ : ∃ s, Runs.run step {} swept = some s ∧
      s.sweep = .finished ∧ s.finishing = false ∧ s.seq < 2 ^ 64 ∧
      (s.calls 0).completions = [.error (.text "connection closed")] ∧
      (s.calls 1).completions = [.ok [7]] := by decide +kernel
  exact ⟨s, hs, hfirst, hsecond, (futures_settled hs).2 hsweep hreader hseq⟩

/-- `readLoop` has taken the future for its response when `shutdown` runs: `shutdown` has finished
and no call is in progress, but the future is not complete yet. -/
theorem future_in_transit :
    ∃ s, Runs.run step {} (sendOne 0 ++ [.read (.read { requestID := 1 })] ++ sweepEmpty) =
        some s ∧
      s.sweep = .finished ∧ (∀ i, (s.calls i).inProgress = false) ∧
      (s.calls 0).pc = .returned ∧ (s.calls 0).complete = false := by
  refine ⟨_, rfl, rfl, fun i => ?_, rfl, rfl⟩
  cases i with
  | zero | succ => rfl

/-! ## When the counter has come round -/

/-- A call of `SendAsync` that has got its number. -/
def takeNumber (i : ℕ) : List Event :=
  [.send i (.begin .unary {}), .send i .nextSeq]

/-- The calls from `m` on have got the next `n` numbers. -/
def numbered (s : TCPClient) (m n : ℕ) : TCPClient :=
  { s with
    seq := s.seq + n
    calls := fun j =>
      if m ≤ j ∧ j < m + n then { pc := .numbered, ticket := s.seq + (j - m) + 1 }
      else s.calls j }

/-- By induction on the number of the calls; each of them is idle when its turn comes. -/
lemma run_takeNumber {m : ℕ} (hidle : ∀ j, m ≤ j → s.calls j = {}) (hopen : s.closed = false)
    (n : ℕ) : Runs.run step s ((range' m n).flatMap takeNumber) = some (s.numbered m n) := by
  induction n with
  | zero =>
    have hnone : (s.numbered m 0).calls = s.calls := by
      funext j
      exact if_neg (by omega)
    exact congrArg (fun calls => some { s with calls := calls }) hnone.symm
  | succ n ih =>
    have hcall : (s.numbered m n).calls (m + n) = {} := by
      simp [numbered, hidle]
    have hclosed : (s.numbered m n).closed = false := hopen
    have hone : Runs.run step (s.numbered m n) (takeNumber (m + n)) = some { s.numbered m n with
        seq := (s.numbered m n).seq + 1
        calls := update (s.numbered m n).calls (m + n)
          { pc := .numbered, ticket := (s.numbered m n).seq + 1 } } := by
      simp [takeNumber, Runs.run, step, stepSend, hcall, hclosed, modify]
    have hcalls : update (s.numbered m n).calls (m + n)
        { pc := .numbered, ticket := s.seq + n + 1 } = (s.numbered m (n + 1)).calls := by
      funext j
      simp only [numbered, update_apply]
      grind
    rw [range'_1_concat, flatMap_append, Runs.run_append, ih, flatMap_singleton, Option.bind_some,
      hone]
    exact congrArg (fun calls => some { s with seq := s.seq + n + 1, calls := calls }) hcalls

/-- **The bound on the counter is needed.** The first call waits for its response while `2 ^ 64`
further calls get their numbers. The last of them has the number of the first one and takes its
place in the map, so `shutdown` completes the last future and not the first one. -/
theorem future_replaced :
    ∃ es s, Runs.run step {} es = some s ∧ s.sweep = .finished ∧ s.finishing = false ∧
      s.seq = 2 ^ 64 + 1 ∧ (s.calls 0).pc = .returned ∧ (s.calls 0).complete = false := by
  obtain ⟨s, hs, hidle, hopen, hlast⟩ : ∃ s, Runs.run step {} (sendOne 0) = some s ∧
      (∀ j, 1 ≤ j → s.calls j = {}) ∧ s.closed = false ∧
      ∃ s', Runs.run step (s.numbered 1 (2 ^ 64 - 1)) (sendOne (2 ^ 64) ++ sweepFirst) = some s' ∧
        s'.sweep = .finished ∧ s'.finishing = false ∧ s'.seq = 2 ^ 64 + 1 ∧
        (s'.calls 0).pc = .returned ∧ (s'.calls 0).complete = false := by
    refine ⟨_, rfl, ?_, rfl, ?_⟩
    · intro j hj
      cases j with
      | zero => omega
      | succ j => rfl
    · decide +kernel
  obtain ⟨s', hs', h⟩ := hlast
  refine ⟨sendOne 0 ++ ((range' 1 (2 ^ 64 - 1)).flatMap takeNumber ++
    (sendOne (2 ^ 64) ++ sweepFirst)), s', ?_, h⟩
  rw [Runs.run_append, hs, Option.bind_some, Runs.run_append, run_takeNumber hidle hopen,
    Option.bind_some, hs']

end TCPClient

end Yukino.Rpc
