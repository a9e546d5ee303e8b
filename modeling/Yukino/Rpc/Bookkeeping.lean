import Yukino.Rpc.Invoke

set_option autoImplicit false

/-!
# Every call reports to its breaker

A breaker that is half-open lets no call through until the one it has let through reports. So each
call that is let through has to report, whatever becomes of it. The code forgets to when the
arguments cannot be marshalled, and does not when the consumer of a stream is cancelled.

## Main definitions

* `Attempt.Good` — what a call has reported, by how far it has come.

## Main results

* `Breakers.one_record` — in a run whose steps meet the condition `reports`, a call that
  was let through and has finished has reported exactly once, and a half-open breaker waits for a
  call that is in progress.
* `Breakers.probe_lost` — a call whose arguments cannot be marshalled leaves its breaker
  half-open for ever.
-/

namespace Yukino.Rpc

open List Function Bool Option

/-! ## One call -/

namespace Attempt

variable {c c' : Attempt} {e : AttemptEvent} {r : Option Record}

/-- The call has no future and no stream yet. -/
structure Fresh (c : Attempt) : Prop where
  complete : c.complete = false
  callback : c.callback = false
  calling : c.calling = false
  closed : c.closed = false
  once : c.once = false

/-- The future of the call is going to report: its callback is set, or is about to run. -/
def Pending (c : Attempt) : Prop :=
  c.records = [] ∧ c.closed = false ∧
    (c.complete = false ∧ c.callback = true ∧ c.calling = false ∨
      c.complete = true ∧ c.calling = true)

/-- The call has reported. -/
def Reported (c : Attempt) : Prop :=
  c.records.length = 1 ∧ c.calling = false

/-- What a call has reported, by how far it has come. -/
def Good (c : Attempt) : Prop :=
  match c.stage with
  | .idle | .addressed => c.allowed = false ∧ c.records = [] ∧ c.Fresh
  | .allowed | .acquired | .marshalled => c.allowed = true ∧ c.records = [] ∧ c.Fresh
  | .sent => c.allowed = true ∧ c.records = [] ∧ c.callback = false ∧ c.calling = false ∧
      (c.complete = false → c.closed = false)
  | .returned => c.allowed = true ∧ (c.Pending ∨ c.Reported ∧ c.complete = true)
  | .streaming => c.allowed = true ∧ c.records = [] ∧ c.calling = false ∧ c.once = false
  | .closed => c.allowed = true ∧ c.Reported ∧ c.once = true
  | .finished => (c.allowed = true ∧ c.Reported) ∨
      (c.allowed = false ∧ c.records = [] ∧ c.calling = false)

lemma good_init : Good {} := ⟨rfl, rfl, rfl, rfl, rfl, rfl, rfl⟩

/-! ### Before the request is sent -/

section

variable (h : c.Good)
include h

lemma Good.refuse (hs : c.step .refuse = some (c', r)) : (c'.add r).Good := by
  obtain ⟨hstage, hs⟩ := ite_none_right_eq_some.1 hs
  cases hs
  rw [Good, hstage] at h
  obtain ⟨hallowed, hrecords, hfresh⟩ := h
  exact .inr ⟨hallowed, (append_nil _).trans hrecords, hfresh.calling⟩

lemma Good.begin {method : Method} {key : String}
    (hs : c.step (.begin method key) = some (c', r)) : (c'.add r).Good := by
  obtain ⟨hstage, hs⟩ := ite_none_right_eq_some.1 hs
  cases hs
  rw [Good, hstage] at h
  obtain ⟨hallowed, hrecords, hfresh⟩ := h
  exact ⟨hallowed, (append_nil _).trans hrecords, { hfresh with }⟩

lemma Good.acquire {ok : Bool} (hs : c.step (.acquire ok) = some (c', r)) : (c'.add r).Good := by
  obtain ⟨hstage, hs⟩ := ite_none_right_eq_some.1 hs
  rw [Good, hstage] at h
  obtain ⟨hallowed, hrecords, hfresh⟩ := h
  split at hs <;> cases hs
  · exact ⟨hallowed, (append_nil _).trans hrecords, { hfresh with }⟩
  · exact .inl ⟨hallowed, congrArg (fun l => (l ++ [Record.failure]).length) hrecords,
      hfresh.calling⟩

lemma Good.marshal (hs : c.step (.marshal true) = some (c', r)) : (c'.add r).Good := by
  obtain ⟨hstage, hs⟩ := ite_none_right_eq_some.1 hs
  cases hs
  rw [Good, hstage] at h
  obtain ⟨hallowed, hrecords, hfresh⟩ := h
  exact ⟨hallowed, (append_nil _).trans hrecords, { hfresh with }⟩

lemma Good.send {ok : Bool} (hs : c.step (.send ok) = some (c', r)) : (c'.add r).Good := by
  obtain ⟨hstage, hs⟩ := ite_none_right_eq_some.1 hs
  rw [Good, hstage] at h
  obtain ⟨hallowed, hrecords, hfresh⟩ := h
  split at hs <;> cases hs
  · by_cases hmethod : c.method = .InvokeStream
    · rw [if_pos hmethod]
      exact ⟨hallowed, (append_nil _).trans hrecords, hfresh.calling, hfresh.once⟩
    · rw [if_neg hmethod]
      exact ⟨hallowed, (append_nil _).trans hrecords, hfresh.callback, hfresh.calling,
        fun _ => hfresh.closed⟩
  · exact .inl ⟨hallowed, congrArg (fun l => (l ++ [Record.failure]).length) hrecords,
      hfresh.calling⟩

/-! ### The future -/

/-- The callback is set before the future completes, or runs at once. -/
lemma Good.onComplete (hs : c.step .onComplete = some (c', r)) : (c'.add r).Good := by
  obtain ⟨hstage, hs⟩ := ite_none_right_eq_some.1 hs
  rw [Good, hstage] at h
  obtain ⟨hallowed, hrecords, -, hcalling, hclosed⟩ := h
  split at hs <;> cases hs
  · next hcomplete =>
    exact ⟨hallowed,
      .inr ⟨⟨congrArg (fun l => (l ++ [c.result]).length) hrecords, hcalling⟩, hcomplete⟩⟩
  · next hcomplete =>
    have hcomplete := eq_false_iff.2 hcomplete
    exact ⟨hallowed, .inl ⟨(append_nil _).trans hrecords, hclosed hcomplete,
      .inl ⟨hcomplete, rfl, hcalling⟩⟩⟩

/-- Only the first `Done` completes the future. -/
lemma Good.done {result : Record} (hs : c.step (.done result) = some (c', r)) :
    (c'.add r).Good := by
  unfold Attempt.step at hs
  dsimp only at hs
  split at hs
  · next hstage =>
    split at hs
    · cases hs
      rw [add, toList_none, append_nil]
      exact h
    · next hcomplete =>
      have hcomplete := eq_false_iff.2 hcomplete
      unfold Good at h
      obtain hstage | hstage := hstage
      · rw [hstage] at h
        obtain ⟨hallowed, hrecords, hcallback, hcalling, hclosed⟩ := h
        rw [hcallback] at hs
        cases hs
        rw [hstage]
        exact ⟨hallowed, (append_nil _).trans hrecords, rfl, hcalling, nofun⟩
      · rw [hstage] at h
        obtain ⟨hallowed, ⟨hrecords, hclosed, hpending⟩ | ⟨-, hcomplete'⟩⟩ := h
        · obtain ⟨-, hcallback, -⟩ | ⟨hcomplete', -⟩ := hpending
          · rw [hcallback] at hs
            cases hs
            rw [hstage]
            exact ⟨hallowed, .inl ⟨(append_nil _).trans hrecords, hclosed, .inr ⟨rfl, rfl⟩⟩⟩
          · exact Bool.noConfusion (hcomplete'.symm.trans hcomplete)
        · exact Bool.noConfusion (hcomplete'.symm.trans hcomplete)
  · cases hs

/-- The callback runs for a call that waits for its report. -/
lemma Good.of_calling (hcalling : c.calling = true) :
    c.stage = .returned ∧ c.allowed = true ∧ c.records = [] ∧ c.complete = true := by
  have hne : c.calling ≠ false := fun hc => Bool.noConfusion (hcalling.symm.trans hc)
  unfold Good at h
  cases hstage : c.stage with
  | idle | addressed | allowed | acquired | marshalled =>
    rw [hstage] at h
    exact (hne h.2.2.calling).elim
  | sent =>
    rw [hstage] at h
    exact (hne h.2.2.2.1).elim
  | returned =>
    rw [hstage] at h
    obtain ⟨hallowed, ⟨hrecords, -, ⟨-, -, hc⟩ | ⟨hcomplete, -⟩⟩ | ⟨hreported, -⟩⟩ := h
    · exact (hne hc).elim
    · exact ⟨rfl, hallowed, hrecords, hcomplete⟩
    · exact (hne hreported.2).elim
  | streaming =>
    rw [hstage] at h
    exact (hne h.2.2.1).elim
  | closed =>
    rw [hstage] at h
    exact (hne h.2.1.2).elim
  | finished =>
    rw [hstage] at h
    obtain ⟨-, hreported⟩ | ⟨-, -, hc⟩ := h
    · exact (hne hreported.2).elim
    · exact (hne hc).elim

lemma Good.callback (hs : c.step .callback = some (c', r)) : (c'.add r).Good := by
  obtain ⟨hcalling, hs⟩ := ite_none_right_eq_some.1 hs
  cases hs
  obtain ⟨hstage, hallowed, hrecords, hcomplete⟩ := h.of_calling hcalling
  rw [hstage]
  exact ⟨hallowed, .inr ⟨⟨congrArg (fun l => (l ++ [c.result]).length) hrecords, rfl⟩, hcomplete⟩⟩

/-- A call whose channel is closed has reported. -/
lemma Good.wait (hs : c.step .wait = some (c', r)) : (c'.add r).Good := by
  obtain ⟨hstage, hs⟩ := ite_none_right_eq_some.1 hs
  cases hs
  rw [Good, hstage.1] at h
  obtain ⟨hallowed, ⟨-, hclosed, -⟩ | ⟨⟨hrecords, hcalling⟩, -⟩⟩ := h
  · exact Bool.noConfusion (hstage.2.symm.trans hclosed)
  · exact .inl ⟨hallowed, (congrArg length (append_nil _)).trans hrecords, hcalling⟩

/-- `Invoke` may go once the callback has run. -/
lemma Good.abandon (hok : c.reports .abandon = true)
    (hs : c.step .abandon = some (c', r)) : (c'.add r).Good := by
  obtain ⟨hstage, hs⟩ := ite_none_right_eq_some.1 hs
  cases hs
  rw [Good, hstage.1] at h
  have hcalling : c.calling = false := not_eq_true' _ ▸ hok
  obtain ⟨hallowed, ⟨-, -, hpending⟩ | ⟨⟨hrecords, -⟩, -⟩⟩ := h
  · obtain ⟨hcomplete, -⟩ | ⟨-, hc⟩ := hpending
    · exact Bool.noConfusion (hstage.2.2.symm.trans hcomplete)
    · exact Bool.noConfusion (hcalling.symm.trans hc)
  · exact .inl ⟨hallowed, (congrArg length (append_nil _)).trans hrecords, hcalling⟩

/-! ### The stream -/

/-- A stream that is open has not reported; one whose consumer has got an error has. -/
lemma Good.of_stream (hstage : c.stage = .streaming ∨ c.stage = .closed) :
    c.allowed = true ∧ c.calling = false ∧
      (c.once = false → c.records = []) ∧ (c.once = true → c.records.length = 1) := by
  unfold Good at h
  obtain hstage | hstage := hstage
  · rw [hstage] at h
    obtain ⟨hallowed, hrecords, hcalling, honce⟩ := h
    rw [honce]
    exact ⟨hallowed, hcalling, fun _ => hrecords, nofun⟩
  · rw [hstage] at h
    obtain ⟨hallowed, ⟨hrecords, hcalling⟩, honce⟩ := h
    rw [honce]
    exact ⟨hallowed, hcalling, nofun, fun _ => hrecords⟩

end

/-- `once` lets the first error report, and no other. -/
lemma length_once {o : Record} (hnone : c.once = false → c.records = [])
    (hone : c.once = true → c.records.length = 1) :
    (c.records ++ (if c.once then none else some o).toList).length = 1 := by
  cases honce : c.once with
  | false =>
    rw [hnone honce]
    rfl
  | true => exact (congrArg length (append_nil _)).trans (hone honce)

lemma Good.recv {x : Received} (h : c.Good) (hok : c.reports (.recv x) = true)
    (hs : c.step (.recv x) = some (c', r)) : (c'.add r).Good := by
  unfold Attempt.step at hs
  dsimp only at hs
  split at hs
  · next hstage =>
    obtain ⟨hallowed, hcalling, hnone, hone⟩ := h.of_stream hstage
    cases x with
    | frame =>
      cases hs
      rw [add, toList_none, append_nil]
      exact h
    | eof | failed =>
      cases hs
      exact ⟨hallowed, ⟨length_once hnone hone, hcalling⟩, rfl⟩
    | canceled =>
      cases hs
      exact ⟨hallowed, ⟨(congrArg length (append_nil _)).trans (hone hok), hcalling⟩, hok⟩
  · cases hs

lemma Good.leave (h : c.Good) (hok : c.reports .leave = true)
    (hs : c.step .leave = some (c', r)) : (c'.add r).Good := by
  obtain ⟨hstage, hs⟩ := ite_none_right_eq_some.1 hs
  cases hs
  obtain ⟨hallowed, hcalling, -, hone⟩ := h.of_stream (.inl hstage)
  exact ⟨hallowed, ⟨(congrArg length (append_nil _)).trans (hone hok), hcalling⟩, hok⟩

/-- **A step keeps the books of a call**, if the call reports. -/
lemma Good.step (h : c.Good) (hok : c.reports e = true) (hs : c.step e = some (c', r)) :
    (c'.add r).Good := by
  cases e with
  | refuse => exact h.refuse hs
  | begin method key => exact h.begin hs
  | acquire ok => exact h.acquire hs
  | marshal ok =>
    obtain rfl : ok = true := hok
    exact h.marshal hs
  | send ok => exact h.send hs
  | onComplete => exact h.onComplete hs
  | done result => exact h.done hs
  | callback => exact h.callback hs
  | wait => exact h.wait hs
  | abandon => exact h.abandon hok hs
  | recv x => exact h.recv hok hs
  | leave => exact h.leave hok hs

/-- A call has reported at most once, and not at all if it was not let through. -/
lemma Good.records (h : c.Good) : c.records.length ≤ 1 ∧ (c.allowed = false → c.records = []) := by
  have hnil : c.records = [] → c.records.length ≤ 1 ∧ (c.allowed = false → c.records = []) := by
    intro hrecords
    rw [hrecords]
    exact ⟨Nat.zero_le 1, fun _ => rfl⟩
  have hone : c.allowed = true → c.records.length = 1 →
      c.records.length ≤ 1 ∧ (c.allowed = false → c.records = []) := fun hallowed hrecords =>
    ⟨Nat.le_of_eq hrecords, fun hc => Bool.noConfusion (hallowed.symm.trans hc)⟩
  unfold Good at h
  split at h
  · exact hnil h.2.1
  · exact hnil h.2.1
  · exact hnil h.2.1
  · exact hnil h.2.1
  · exact hnil h.2.1
  · exact hnil h.2.1
  · obtain ⟨hallowed, hpending | ⟨hreported, -⟩⟩ := h
    · exact hnil hpending.1
    · exact hone hallowed hreported.1
  · exact hnil h.2.1
  · exact hone h.1 h.2.1.1
  · obtain ⟨hallowed, hreported⟩ | ⟨-, hrecords, -⟩ := h
    · exact hone hallowed hreported.1
    · exact hnil hrecords

lemma Good.finished (h : c.Good) (hfinished : c.hasFinished = true) (hallowed : c.allowed = true) :
    c.records.length = 1 := by
  unfold Good at h
  obtain hstage | hstage := of_decide_eq_true hfinished
  · rw [hstage] at h
    obtain ⟨-, hreported⟩ | ⟨hc, -⟩ := h
    · exact hreported.1
    · exact Bool.noConfusion (hallowed.symm.trans hc)
  · rw [hstage] at h
    exact h.2.1.1

/-- The call was let through by the breaker of the key, and has not reported to it. -/
def Owes (c : Attempt) (key : String) : Prop :=
  c.allowed = true ∧ c.key = key ∧ c.records = []

/-- A call that was let through keeps its breaker, and a step does not take back a report. -/
lemma Good.keeps (h : c.Good) (hs : c.step e = some (c', r)) :
    c'.records = c.records ∧ (c.allowed = true → c'.allowed = true ∧ c'.key = c.key) := by
  unfold Attempt.step at hs
  cases e with
  | begin method key =>
    dsimp only at hs
    split at hs <;> cases hs
    next hstage =>
      refine ⟨rfl, fun hallowed => ?_⟩
      unfold Good at h
      rw [hstage] at h
      exact Bool.noConfusion (hallowed.symm.trans h.1)
  | recv x =>
    cases x <;> dsimp only at hs <;> split_ifs at hs <;> cases hs <;>
      exact ⟨rfl, fun hallowed => ⟨hallowed, rfl⟩⟩
  | acquire | marshal | send | onComplete | done | callback | refuse | wait | abandon | leave =>
    dsimp only at hs
    split_ifs at hs <;> cases hs <;> exact ⟨rfl, fun hallowed => ⟨hallowed, rfl⟩⟩

end Attempt

/-! ## All calls -/

namespace Breakers

variable {cfg : BreakerConfig} {s s' : Breakers}

structure Books (s : Breakers) : Prop where
  good : ∀ i, (s.calls i).Good
  /-- The call that a half-open breaker has let through has not reported yet. -/
  owes : ∀ key, (s.breakers key).state = .HalfOpen → (s.breakers key).halfOpenProbe = true →
    (s.calls (s.granted key)).Owes key

lemma books_init : Books {} where
  good _ := Attempt.good_init
  owes _ h := by cases h

/-- **A report ends the half-open state**, so a half-open breaker has none of its probe. -/
lemma Books.call (h : s.Books) {i : ℕ} {e : AttemptEvent} {c : Attempt} {r : Option Record}
    (hok : (s.calls i).reports e = true) (hs : (s.calls i).step e = some (c, r)) :
    (s.report cfg i c r).Books := by
  obtain ⟨hrecords, hkeeps⟩ := (h.good i).keeps hs
  constructor
  · exact (forall_update_iff s.calls fun _ c => c.Good).2
      ⟨(h.good i).step hok hs, fun j _ => h.good j⟩
  · intro key hstate hprobe
    -- the breaker of this key has had no record in this step
    have hsame : (s.report cfg i c r).breakers key = s.breakers key ∧
        (r = none ∨ key ≠ c.key) := by
      unfold report at hstate ⊢
      cases r with
      | none => exact ⟨rfl, .inl rfl⟩
      | some o =>
        dsimp only at hstate ⊢
        by_cases hkey : key = c.key
        · rw [hkey, update_self] at hstate
          exact (CircuitBreaker.record_ne_halfOpen cfg s.now _ o hstate).elim
        · exact ⟨update_of_ne hkey .., .inr hkey⟩
    rw [hsame.1] at hstate hprobe
    have howes := h.owes key hstate hprobe
    unfold report
    dsimp only
    by_cases hj : s.granted key = i
    · rw [hj] at howes ⊢
      obtain ⟨hallowed, hkey, hnil⟩ := howes
      obtain ⟨hallowed', hkey'⟩ := hkeeps hallowed
      obtain rfl : r = none := hsame.2.resolve_right fun hne => hne (hkey.symm.trans hkey'.symm)
      rw [update_self]
      exact ⟨hallowed', hkey'.trans hkey, (append_nil _).trans (hrecords.trans hnil)⟩
    · rw [update_of_ne hj]
      exact howes

/-- The call that is let through is the one to report. -/
lemma Books.allow (h : s.Books) {i : ℕ} (hs : s.step cfg (.allow i) = some s') : s'.Books := by
  unfold step at hs
  dsimp only at hs
  split at hs
  · next hstage =>
    have hgood := h.good i
    unfold Attempt.Good at hgood
    rw [hstage] at hgood
    obtain ⟨hallowed, hrecords, hfresh⟩ := hgood
    -- a call that owes a report has been let through before
    have hne : ∀ key, (s.calls (s.granted key)).Owes key → s.granted key ≠ i := by
      rintro key ⟨howes, -⟩ rfl
      exact Bool.noConfusion (howes.symm.trans hallowed)
    split at hs <;> cases hs
    · next br hallow =>
      constructor
      · exact (forall_update_iff s.calls fun _ c => c.Good).2
          ⟨⟨rfl, hrecords, { hfresh with }⟩, fun j _ => h.good j⟩
      · intro key hstate hprobe
        dsimp only at hstate hprobe ⊢
        by_cases hkey : key = (s.calls i).key
        · rw [hkey, update_self, update_self]
          exact ⟨rfl, rfl, hrecords⟩
        · rw [update_of_ne hkey] at hstate hprobe ⊢
          have howes := h.owes key hstate hprobe
          rw [update_of_ne (hne key howes)]
          exact howes
    · next br hallow =>
      have hbr : br = s.breakers (s.calls i).key := by
        have hrefused := CircuitBreaker.Allow_refused cfg s.now (s.breakers (s.calls i).key)
        rw [hallow] at hrefused
        exact hrefused rfl
      constructor
      · exact (forall_update_iff s.calls fun _ c => c.Good).2
          ⟨.inr ⟨hallowed, hrecords, hfresh.calling⟩, fun j _ => h.good j⟩
      · intro key hstate hprobe
        dsimp only at hstate hprobe ⊢
        rw [hbr, update_eq_self] at hstate hprobe
        have howes := h.owes key hstate hprobe
        rw [update_of_ne (hne key howes)]
        exact howes
  · cases hs

lemma Books.step (h : s.Books) {e : BreakersEvent} (hok : s.reports e = true)
    (hs : s.step cfg e = some s') : s'.Books := by
  cases e with
  | call i e =>
    obtain ⟨⟨c, r⟩, hc, rfl⟩ := map_eq_some_iff.1 hs
    exact h.call hok hc
  | allow i => exact h.allow hs
  | tick d =>
    cases hs
    exact ⟨h.good, h.owes⟩

/-- **The books of the breakers.** In every run whose steps meet the condition, a call reports at
most once, and only if it was let through; when it was let through and has finished, it has reported
exactly once. A half-open breaker with its probe out waits for a call that is in progress, and will
not be half-open after the report of this call.

**Proof sketch.** The books of a single call are kept by each of its steps (`Attempt.Good.step`). A
report ends the half-open state, so the call that a half-open breaker has let through last has not
reported, and so it has not finished. -/
theorem one_record (cfg : BreakerConfig) {es : List BreakersEvent}
    (hrun : Runs.run (step cfg) {} es = some s)
    (hok : Runs.along (step cfg) reports {} es = true) :
    (∀ i, (s.calls i).records.length ≤ 1 ∧
      ((s.calls i).allowed = false → (s.calls i).records = []) ∧
      ((s.calls i).hasFinished = true → (s.calls i).allowed = true →
        (s.calls i).records.length = 1)) ∧
    ∀ key, (s.breakers key).state = .HalfOpen → (s.breakers key).halfOpenProbe = true →
      (s.calls (s.granted key)).allowed = true ∧ (s.calls (s.granted key)).key = key ∧
      (s.calls (s.granted key)).hasFinished = false ∧
      ∀ o, ((s.breakers key).record cfg s.now o).state ≠ .HalfOpen := by
  have hinv : s.Books :=
    Runs.along_invariant (fun _ _ _ h hok hs => h.step hok hs) books_init hok hrun
  constructor
  · intro i
    have hgood := hinv.good i
    exact ⟨hgood.records.1, hgood.records.2, hgood.finished⟩
  · intro key hstate hprobe
    obtain ⟨hallowed, hkey, hnil⟩ := hinv.owes key hstate hprobe
    refine ⟨hallowed, hkey, eq_false_iff.2 fun hfinished => ?_,
      CircuitBreaker.record_ne_halfOpen cfg s.now _⟩
    have hone := (hinv.good _).finished hfinished hallowed
    rw [hnil] at hone
    cases hone

/-! ## Runs with the breakers of a client -/

/-- The breakers of `getBreaker`, with times in nanoseconds. -/
def clientConfig : BreakerConfig where
  windowSize := 10
  exceeds failures total := 6 * total ≤ 10 * failures
  openTimeout := 5000000000

/-- A call up to the breaker. -/
def ask (i : ℕ) : List BreakersEvent :=
  [.call i (.begin .Invoke "Arith|:8080"), .allow i]

/-- Ten calls that get no connection, and the time until the breaker tries again. -/
def tenFailures : List BreakersEvent :=
  (range 10).flatMap (fun i => ask i ++ [.call i (.acquire false)]) ++ [.tick 6000000000]

/-- A probe that gets its answer. -/
def probeAnswered : List BreakersEvent :=
  tenFailures ++ ask 10 ++ [.call 10 (.acquire true), .call 10 (.marshal true),
    .call 10 (.send true), .call 10 .onComplete, .call 10 (.done .success), .call 10 .callback,
    .call 10 .wait]

/-- The probe of a half-open breaker is answered. -/
theorem one_record_probeAnswered :
    ∃ s, Runs.run (step clientConfig) {} probeAnswered = some s ∧
      (s.calls 10).hasFinished = true ∧ (s.calls 10).records.length = 1 := by
  obtain ⟨s, hs, hfinished, hallowed⟩ :
      ∃ s, Runs.run (step clientConfig) {} probeAnswered = some s ∧
        (s.calls 10).hasFinished = true ∧ (s.calls 10).allowed = true := by decide +kernel
  have hrecords := (one_record clientConfig hs (by decide +kernel)).1 10
  exact ⟨s, hs, hfinished, hrecords.2.2 hfinished hallowed⟩

/-- The arguments of the probe cannot be marshalled: the call returns its error without a report,
and the breaker lets no call through from then on. -/
theorem probe_lost :
    ∃ s, Runs.run (step clientConfig) {}
        (tenFailures ++ ask 10 ++ [.call 10 (.acquire true), .call 10 (.marshal false)]) =
          some s ∧
      (s.calls 10).allowed = true ∧ (s.calls 10).hasFinished = true ∧
      (s.calls 10).records = [] ∧
      (s.breakers "Arith|:8080").state = .HalfOpen ∧
      (s.breakers "Arith|:8080").halfOpenProbe = true ∧
      ∀ now, ((s.breakers "Arith|:8080").Allow clientConfig now).1 = false := by
  obtain ⟨s, hs, hallowed, hfinished, hrecords, hstate, hprobe⟩ :
      ∃ s, Runs.run (step clientConfig) {}
          (tenFailures ++ ask 10 ++ [.call 10 (.acquire true), .call 10 (.marshal false)]) =
            some s ∧
        (s.calls 10).allowed = true ∧ (s.calls 10).hasFinished = true ∧
        (s.calls 10).records = [] ∧ (s.breakers "Arith|:8080").state = .HalfOpen ∧
        (s.breakers "Arith|:8080").halfOpenProbe = true := by decide +kernel
  refine ⟨s, hs, hallowed, hfinished, hrecords, hstate, hprobe, fun now => ?_⟩
  unfold CircuitBreaker.Allow
  rw [hstate]
  rw [if_pos hprobe]

end Breakers

end Yukino.Rpc
