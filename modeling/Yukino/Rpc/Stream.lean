import Yukino.Lib.Runs
import Mathlib.Tactic.SplitIfs
import Mathlib.Tactic.Lemma

set_option autoImplicit false

/-!
# Streams of a client

`ClientStreamConn` carries the frames of one stream from `readLoop` to its consumer. `readLoop`
pushes the frames into a channel and ends the stream once; `Recv` takes a frame if there is one,
and otherwise waits for a frame or for the end.

## Main definitions

* `ClientStreamConn.step` — a step of `readLoop` or of a call of `Recv`.

## Main results

* `ClientStreamConn.recv_in_order` — `Recv` returns the frames in the order of the pushes, and an
  error only when it has returned all of them.

## Design

Each `select` is one step, so the steps of the two goroutines interleave in every way. A `select`
with two cases that are ready may take either. `pushed` and `returned` record the calls of `Push`
and what the calls of `Recv` have returned. The context of the stream is not cancelled.

`TCPClient` keeps the channel of a stream as `Call.frames`, without the stages of `Recv`, and has a
`Close`, which may end a stream while `readLoop` is in a `Push`; here only `readLoop` ends it.
-/

namespace Yukino.Rpc

/-- The error of a stream that has ended: `io.EOF`, or that of a `StreamError` or of the
connection. -/
inductive TermErr
  | eof
  | error (text : String)
  deriving DecidableEq

/-- Where the consumer is in `Recv`. -/
inductive RecvStage
  | idle
  /-- At the `select` with three cases. -/
  | waiting
  /-- At the last `select`, behind `<-s.termCh`. -/
  | draining
  deriving DecidableEq

structure ClientStreamConn (β : Type) where
  ch : List β := []
  /-- The error, once `termCh` is closed. -/
  termErr : Option TermErr := none
  /-- `streams` of the client has the stream. -/
  stored : Bool := true
  /-- The body of the `Push` that `readLoop` is in. -/
  pushing : Option β := none
  stage : RecvStage := .idle
  pushed : List β := []
  returned : List (Except TermErr β) := []

namespace ClientStreamConn

inductive Event (β : Type)
  /-- `readLoop` reads a frame of the stream. -/
  | streamData (body : β)
  /-- `Push` sends to the channel. -/
  | send
  /-- `Push` gives up, since the stream has ended. -/
  | drop
  /-- `readLoop` reads the end of the stream or its error, or it loses the connection. -/
  | streamEnd (err : TermErr)
  /-- `Recv` is called and comes to its first `select`. -/
  | recv
  /-- The case `<-s.ch` of the second one. -/
  | take
  /-- The case `<-s.termCh` of the second one. -/
  | signal
  /-- The last `select`. -/
  | drain

variable {β : Type}

def terminate (s : ClientStreamConn β) (err : TermErr) : ClientStreamConn β :=
  match s.termErr with
  | none => { s with termErr := some err }
  | some _ => s

/-- `Recv` returns. -/
def ret (s : ClientStreamConn β) (r : Except TermErr β) : ClientStreamConn β :=
  { s with stage := .idle, returned := s.returned ++ [r] }

/-- The case `frame := <-s.ch` of a `select`. -/
def take (s : ClientStreamConn β) : Option (ClientStreamConn β) :=
  match s.ch with
  | body :: rest => some ({ s with ch := rest }.ret (.ok body))
  | [] => none

/-- The channel has a capacity of 64 frames. -/
def step (s : ClientStreamConn β) : Event β → Option (ClientStreamConn β)
  | .streamData body =>
    if s.pushing = none then
      some (if s.stored then { s with pushing := some body, pushed := s.pushed ++ [body] } else s)
    else none
  | .send =>
    s.pushing.bind fun body =>
      if s.ch.length < 64 then some { s with ch := s.ch ++ [body], pushing := none } else none
  | .drop => if s.pushing ≠ none ∧ s.termErr ≠ none then some { s with pushing := none } else none
  | .streamEnd err =>
    if s.pushing = none then some (if s.stored then { s with stored := false }.terminate err else s)
    else none
  | .recv => if s.stage = .idle then s.take.or (some { s with stage := .waiting }) else none
  | .take => if s.stage = .waiting then s.take else none
  | .signal =>
    if s.stage = .waiting ∧ s.termErr ≠ none then some { s with stage := .draining } else none
  | .drain =>
    if s.stage = .draining then s.take.or (s.termErr.map fun err => s.ret (.error err)) else none

/-- `Recv` has returned the frames in `received` and then the errors in `errs`, and the frames
that it has not returned are under way. -/
structure InOrder (s : ClientStreamConn β) (received : List β) (errs : List TermErr) : Prop where
  returned : s.returned = received.map .ok ++ errs.map .error
  frames : received ++ s.ch ++ s.pushing.toList = s.pushed
  stored : s.stored = true ↔ s.termErr = none
  /-- No `Push` is under way when the stream has ended. -/
  pushing : s.termErr ≠ none → s.pushing = none
  termErr : ∀ err ∈ errs, s.termErr = some err
  /-- Nothing is left in the channel when an error has been returned. -/
  ch : errs ≠ [] → s.ch = []

variable {s s' : ClientStreamConn β} {received : List β} {errs : List TermErr}

lemma take_eq_none (h : s.take = none) : s.ch = [] := by
  unfold take at h
  split at h
  · cases h
  · assumption

namespace InOrder

variable (h : s.InOrder received errs)
include h

/-- A stream that has not ended has given no error. -/
lemma errs_eq_nil (hopen : s.termErr = none) : errs = [] := by
  by_contra hne
  obtain ⟨err, herr⟩ := List.exists_mem_of_ne_nil errs hne
  simp [h.termErr err herr] at hopen

/-- `Recv` takes the first frame of the channel, so it has returned no error. -/
lemma take (hs : s.take = some s') : ∃ received' errs', s'.InOrder received' errs' := by
  unfold ClientStreamConn.take at hs
  split at hs
  · rename_i body rest hch
    cases hs
    have herrs : errs = [] := by
      by_contra hne
      simp [h.ch hne] at hch
    refine ⟨received ++ [body], [], ?_, ?_, h.stored, h.pushing, by simp, by simp⟩
    · simp [ret, h.returned, herrs]
    · simp [ret, ← h.frames, hch]
  · cases hs

/-- **A step keeps the order**, by cases on the step. -/
lemma step {e : Event β} (hs : s.step e = some s') :
    ∃ received' errs', s'.InOrder received' errs' := by
  cases e with
  | streamData body =>
    obtain ⟨hnone, hs⟩ := Option.ite_none_right_eq_some.1 hs
    cases hs
    split_ifs with hstored
    · refine ⟨received, errs, { h with frames := ?_, pushing := ?_ }⟩
      · simp [← h.frames, hnone]
      · simp [h.stored.1 hstored]
    · exact ⟨received, errs, h⟩
  | send =>
    obtain ⟨body, hbody, hs⟩ := Option.bind_eq_some_iff.1 hs
    obtain ⟨-, hs⟩ := Option.ite_none_right_eq_some.1 hs
    cases hs
    have hopen : s.termErr = none := by
      by_contra hne
      simp [h.pushing hne] at hbody
    refine ⟨received, errs, { h with frames := ?_, pushing := fun _ => rfl, ch := ?_ }⟩
    · simp [← h.frames, hbody]
    · simp [h.errs_eq_nil hopen]
  | drop =>
    obtain ⟨⟨hsome, hne⟩, -⟩ := Option.ite_none_right_eq_some.1 hs
    exact absurd (h.pushing hne) hsome
  | streamEnd err =>
    obtain ⟨hnone, hs⟩ := Option.ite_none_right_eq_some.1 hs
    cases hs
    split_ifs with hstored
    · have hopen := h.stored.1 hstored
      rw [terminate]
      simp only [hopen]
      have herrs := h.errs_eq_nil hopen
      exact ⟨received, errs, { h with
        stored := by simp, pushing := fun _ => hnone, termErr := by simp [herrs] }⟩
    · exact ⟨received, errs, h⟩
  | recv =>
    obtain ⟨-, hs⟩ := Option.ite_none_right_eq_some.1 hs
    rcases Option.or_eq_some_iff.1 hs with hs | ⟨-, hs⟩
    · exact h.take hs
    · cases hs
      exact ⟨received, errs, { h with }⟩
  | take => exact h.take (Option.ite_none_right_eq_some.1 hs).2
  | signal =>
    obtain ⟨-, hs⟩ := Option.ite_none_right_eq_some.1 hs
    cases hs
    exact ⟨received, errs, { h with }⟩
  | drain =>
    obtain ⟨-, hs⟩ := Option.ite_none_right_eq_some.1 hs
    rcases Option.or_eq_some_iff.1 hs with hs | ⟨hnone, hs⟩
    · exact h.take hs
    · -- the stream has ended and the channel is empty
      obtain ⟨err, herr, rfl⟩ := Option.map_eq_some_iff.1 hs
      have hch : s.ch = [] := take_eq_none hnone
      refine ⟨received, errs ++ [err], { h with
        returned := ?_, termErr := fun err' hmem => ?_, ch := fun _ => hch }⟩
      · simp [ret, h.returned]
      · rcases List.mem_append.1 hmem with hmem | hmem
        · exact h.termErr err' hmem
        · rw [List.mem_singleton.1 hmem]
          exact herr

end InOrder

/-- **Streams deliver in order.** After every interleaving of the steps of `readLoop` and of the
consumer, `Recv` has returned some of the pushed frames, from the first one on and in the order of
the pushes, and then only the error of the stream; the frames that it has not returned are in the
channel or in the `Push` that is under way. Once it has returned the error, it has returned every
frame.

**Proof sketch.** Every step keeps `InOrder`: `readLoop` ends the stream after its pushes, so when
`Recv` finds the channel empty behind `<-s.termCh`, no frame is under way. -/
theorem recv_in_order (es : List (Event β)) (s : ClientStreamConn β)
    (hrun : Runs.run step {} es = some s) :
    ∃ received errs, s.returned = received.map .ok ++ errs.map .error ∧
      received ++ s.ch ++ s.pushing.toList = s.pushed ∧ (∀ err ∈ errs, s.termErr = some err) ∧
      (errs ≠ [] → received = s.pushed) := by
  have hinit : ({} : ClientStreamConn β).InOrder [] [] := by
    constructor <;> simp
  obtain ⟨received, errs, h⟩ := Runs.invariant (I := fun s : ClientStreamConn β =>
    ∃ received errs, s.InOrder received errs) (fun s e s' ⟨_, _, h⟩ hs => h.step hs)
    ⟨[], [], hinit⟩ hrun
  refine ⟨received, errs, h.returned, h.frames, h.termErr, fun hne => ?_⟩
  obtain ⟨err, herr⟩ := List.exists_mem_of_ne_nil errs hne
  simpa [h.ch hne, h.pushing (by simp [h.termErr err herr])] using h.frames

/-- The stream ends while the consumer waits, and the frame before the end is drained. -/
theorem recv_in_order_drained :
    let es : List (Event ℕ) := [.recv, .streamData 7, .send, .streamEnd .eof, .signal, .drain,
      .recv, .signal, .drain]
    ∃ s, Runs.run step {} es = some s ∧ s.returned = [.ok 7, .error .eof] ∧
      ∃ received errs, s.returned = received.map .ok ++ errs.map .error ∧
        received ++ s.ch ++ s.pushing.toList = s.pushed ∧
        (∀ err ∈ errs, s.termErr = some err) ∧ (errs ≠ [] → received = s.pushed) := by
  intro es
  exact ⟨_, rfl, rfl, recv_in_order es _ rfl⟩

end ClientStreamConn

end Yukino.Rpc
