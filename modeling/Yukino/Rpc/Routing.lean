import Yukino.Rpc.Futures
import Yukino.Rpc.Server

set_option autoImplicit false

/-!
# Responses reach their callers

A client and a server on one connection. The client knows from the kind of a call in which of its
maps the response belongs; the server decides by the type of the method, and only once it has got as
far as the method. `readLoop` goes by the flag of the response, so a response is dropped if the two
do not agree.

## Main definitions

* `System`, `System.step` — a client and a server.
* `System.agrees` — the condition on a step: the server is going to treat the request as
  what the client has sent.

## Main results

* `System.responses_delivered` — in a run whose steps meet the condition, every response
  to an outstanding request completes its future, or goes to its stream.

## Design

What is written to the connection arrives in order; a request on its way is the index of its call,
a response the number of the request and the answer. The server handles the requests one after the
other, while the goroutines of its streams write their frames at any time.
-/

namespace Yukino.Rpc

open List

structure System where
  client : TCPClient := {}
  /-- The calls whose requests the server has not read yet. -/
  toServer : List ℕ := []
  /-- The responses that `readLoop` has not read yet. -/
  toClient : List (ℕ × Answer) := []
  tokens : ℕ
  /-- The requests whose streams are open. -/
  running : List ℕ := []

inductive SystemEvent (V : Type*)
  | client (e : Event)
  | receive
  | handle (reply : Except String (Option V))
  | refill
  /-- A streaming method sends a frame. -/
  | streamSend (requestID : ℕ) (body : Bytes)
  /-- A streaming method returns, or panics. -/
  | streamReturn (requestID : ℕ) (err : Option String)

/-- `readLoop` reads a message. -/
def Event.isRead : Event → Bool
  | .read (.read _) => true
  | _ => false

/-- The calls that write their requests. -/
def Event.written : Event → List ℕ
  | .send i (.write true) => [i]
  | _ => []

/-- The request of a call. -/
def Call.request (c : Call) : Message :=
  { c.msg with requestID := c.seq }

namespace System

variable {V : Type*} (h : Server V) (rate : ℕ)

def step (s : System) : SystemEvent V → Option System
  | .client e =>
    if e.isRead then none
    else (s.client.step e).map fun c =>
      { s with client := c, toServer := s.toServer ++ e.written }
  | .receive =>
    match s.toClient with
    | [] => none
    | (requestID, a) :: rest =>
      (s.client.step (.read (.read (a.message requestID)))).map fun c =>
        { s with client := c, toClient := rest }
  | .handle reply =>
    match s.toServer with
    | [] => none
    | i :: rest =>
      let c := s.client.calls i
      match h.Handle s.tokens c.request reply with
      | (some a, tokens) =>
        some { s with toServer := rest, tokens := tokens, toClient := s.toClient ++ [(c.seq, a)] }
      | (none, tokens) =>
        some { s with toServer := rest, tokens := tokens, running := c.seq :: s.running }
  | .refill => some { s with tokens := rate }
  | .streamSend requestID body =>
    if requestID ∈ s.running then
      some { s with toClient := s.toClient ++ [(requestID, .data body)] }
    else none
  | .streamReturn requestID err =>
    if requestID ∈ s.running then
      some { s with
        running := s.running.erase requestID
        toClient := s.toClient ++ [(requestID, err.elim .ended .streamError)] }
    else none

/-- **The server treats the request as what the client has sent**: a call of `SendStream` reaches a
streaming method, and a call of `SendAsync` does not; for the latter, no error has an empty text.
The numbers of the requests do not come round. -/
def agrees (s : System) : SystemEvent V → Bool
  | .client (.send _ .nextSeq) => s.client.seq + 1 < 2 ^ 64
  | .handle reply =>
    match s.toServer with
    | [] => true
    | i :: _ =>
      let c := s.client.calls i
      match c.kind with
      | .stream => h.reachesStream s.tokens c.request
      | .unary => !h.reachesStream s.tokens c.request && h.errorsHaveText c.request reply
  | _ => true

end System

/-! ## Delivery -/

/-- The calls that the answer is for. -/
def Answer.kind : Answer → Kind
  | .error _ | .result _ => .unary
  | .data _ | .ended | .streamError _ => .stream

/-- What `readLoop` has to do with the answer to a call. -/
def Answer.delivery (i : ℕ) : Answer → Reader
  | .error text => .finishing i (.error (.text text))
  | .result body => .finishing i (.ok body)
  | .data body => .pushing i body
  | .ended => .finishing i (.error .eof)
  | .streamError text => .finishing i (.error (.text text))

lemma TCPClient.take_reader {c : TCPClient} {k : Kind} {m : Message} {i : ℕ}
    (h : c.entry k m.requestID = some i) : (c.take k m).reader = .finishing i m.outcome := by
  unfold TCPClient.take
  rw [show (c.table k).lookup m.requestID = some i from h]

lemma TCPClient.take_calls (c : TCPClient) (k : Kind) (m : Message) :
    (c.take k m).calls = c.calls := by
  unfold TCPClient.take TCPClient.Delete
  split
  · exact TCPClient.setTable_calls ..
  · rfl

lemma TCPClient.route_calls (c : TCPClient) (m : Message) : (c.route m).calls = c.calls := by
  unfold TCPClient.route
  split
  · split <;> rfl
  · exact TCPClient.take_calls ..
  · exact TCPClient.take_calls ..
  · exact TCPClient.take_calls ..

/-- `readLoop` finds the call of an answer if it is in the map for answers of this kind. -/
lemma route_delivery {c : TCPClient} {a : Answer} {requestID i : ℕ}
    (hentry : c.entry a.kind requestID = some i) (htext : a ≠ .error "") :
    (c.route (a.message requestID)).reader = a.delivery i := by
  cases a with
  | error text =>
    refine (TCPClient.take_reader hentry).trans ?_
    have hne : text ≠ "" := fun heq => htext (congrArg _ heq)
    unfold Message.outcome Answer.message
    rw [if_pos hne]
    rfl
  | result body => exact TCPClient.take_reader hentry
  | data body =>
    unfold TCPClient.route
    dsimp only [Answer.message]
    rw [show c.streams.lookup requestID = some i from hentry]
    rfl
  | ended | streamError => exact TCPClient.take_reader hentry

namespace System

variable {V : Type*} {h : Server V} {rate : ℕ} {s s' : System}

/-- Every response is addressed to a call of its kind. -/
structure Addressed (s : System) : Prop where
  client : s.client.Invariant
  seq : s.client.seq < 2 ^ 64
  toServer : ∀ i ∈ s.toServer, 0 < (s.client.calls i).ticket
  running : ∀ requestID ∈ s.running, ∃ i, s.client.Own .stream requestID i
  toClient : ∀ r ∈ s.toClient, (∃ i, s.client.Own r.2.kind r.1 i) ∧ r.2 ≠ .error ""

lemma addressed_init (rate : ℕ) : Addressed { tokens := rate } where
  client := TCPClient.invariant_init
  seq := Nat.two_pow_pos 64
  toServer _ h := by cases h
  running _ h := by cases h
  toClient _ h := by cases h

/-- Only `nextSeq` moves the counter. -/
lemma seq_of_step {c c' : TCPClient} {e : Event} (hs : c.step e = some c')
    (he : ∀ i, e ≠ .send i .nextSeq) : c'.seq = c.seq := by
  cases e with
  | send i e =>
    obtain ⟨hpc, -⟩ | ⟨-, -, hseq, -⟩ := (TCPClient.stepSend_cases hs).own
    · -- a call that waits for its number takes no other step
      unfold TCPClient.step TCPClient.stepSend at hs
      cases e with
      | nextSeq => exact (he i rfl).elim
      | _ => simp [hpc] at hs
    · exact hseq
  | read e => exact (TCPClient.stepRead_cases hs).quiet.seq
  | shutdown e => exact (TCPClient.stepShutdown_cases hs).quiet.seq
  | recv i =>
    unfold TCPClient.step at hs
    dsimp only at hs
    split at hs <;> cases hs
    rfl
  | cancel i =>
    cases hs
    rfl

/-- A call that has written its request returns. -/
lemma returned_of_written {c c' : TCPClient} {e : Event} {i : ℕ} (hs : c.step e = some c')
    (hi : i ∈ e.written) : (c'.calls i).pc = .returned := by
  unfold Event.written at hi
  split at hi
  · obtain rfl := mem_singleton.1 hi
    unfold TCPClient.step TCPClient.stepSend at hs
    dsimp only at hs
    split at hs <;> cases hs
    rw [TCPClient.goto_calls_self]
    rfl
  · cases hi

/-- A step of the client keeps the addresses, and adds a request with a number. -/
lemma Addressed.stepClient (ha : s.Addressed) {e : Event} {c : TCPClient}
    (hs : s.client.step e = some c) (hseq : ∀ i, e = .send i .nextSeq → s.client.seq + 1 < 2 ^ 64)
    (toClient : List (ℕ × Answer)) (hsub : ∀ r ∈ toClient, r ∈ s.toClient) :
    Addressed { s with
      client := c, toServer := s.toServer ++ e.written, toClient := toClient } where
  client := ha.client.step hs
  seq := by
    by_cases he : ∃ i, e = .send i .nextSeq
    · obtain ⟨i, rfl⟩ := he
      have hbound := hseq i rfl
      have hstep : TCPClient.SendStep s.client i c := TCPClient.stepSend_cases (e := .nextSeq) hs
      obtain ⟨-, -, -, hseq', -⟩ | ⟨-, -, hseq', -⟩ := hstep.own
      · rw [hseq']
        exact hbound
      · rw [hseq']
        exact ha.seq
    · rw [seq_of_step hs fun i hi => he ⟨i, hi⟩]
      exact ha.seq
  toServer i hi := by
    obtain hi | hi := mem_append.1 hi
    · exact ((TCPClient.own_self (ha.toServer i hi)).step ha.client.numbering hs).2.2
    · apply (ha.client.step hs).numbering.pos
      rw [returned_of_written hs hi]
      rfl
  running requestID hr := by
    obtain ⟨i, hown⟩ := ha.running requestID hr
    exact ⟨i, hown.step ha.client.numbering hs⟩
  toClient r hr := by
    obtain ⟨⟨i, hown⟩, htext⟩ := ha.toClient r (hsub r hr)
    exact ⟨⟨i, hown.step ha.client.numbering hs⟩, htext⟩

/-- **A request that is treated as what it is gets an answer of its kind**, or starts its
stream. -/
lemma Addressed.handle (ha : s.Addressed) {reply : Except String (Option V)}
    (hok : s.agrees h (.handle reply) = true) (hs : s.step h rate (.handle reply) = some s') :
    s'.Addressed := by
  unfold step at hs
  unfold agrees at hok
  dsimp only at hs hok
  split at hs
  · cases hs
  next i rest hserver =>
    rw [hserver] at hok
    have hpos := ha.toServer i (hserver ▸ mem_cons_self)
    have hrest : ∀ j ∈ rest, 0 < (s.client.calls j).ticket := fun j hj =>
      ha.toServer j (hserver ▸ mem_cons_of_mem i hj)
    have hnone := Server.Handle_none_iff h s.tokens (s.client.calls i).request reply
    dsimp only at hs hok
    split at hs <;> cases hs
    · next a tokens hhandle =>
      rw [hhandle] at hnone
      have hreach : h.reachesStream s.tokens (s.client.calls i).request = false :=
        Bool.eq_false_iff.2 fun hr => nomatch hnone.2 hr
      rw [hreach] at hok
      cases hkind : (s.client.calls i).kind with
      | stream =>
        rw [hkind] at hok
        cases hok
      | unary =>
        rw [hkind] at hok
        have hunary := Server.Handle_isUnary h (a := a) hok (by rw [hhandle])
        refine ⟨ha.client, ha.seq, hrest, ha.running, fun r hr => ?_⟩
        obtain hr | hr := mem_append.1 hr
        · exact ha.toClient r hr
        · obtain rfl := mem_singleton.1 hr
          refine ⟨⟨i, ?_, rfl, hpos⟩, ?_⟩
          · cases a with
            | error | result => exact hkind
            | _ => cases hunary
          · rintro rfl
            cases hunary
    · next tokens hhandle =>
      rw [hhandle] at hnone
      rw [hnone.1 rfl] at hok
      refine ⟨ha.client, ha.seq, hrest, fun requestID hr => ?_, ha.toClient⟩
      obtain rfl | hr := mem_cons.1 hr
      · refine ⟨i, ?_, rfl, hpos⟩
        cases hkind : (s.client.calls i).kind with
        | stream => rfl
        | unary =>
          rw [hkind] at hok
          cases hok
      · exact ha.running requestID hr

lemma Addressed.stream (ha : s.Addressed) {requestID : ℕ} (hr : requestID ∈ s.running) {a : Answer}
    (hkind : a.kind = .stream) {running : List ℕ} (hsub : ∀ id ∈ running, id ∈ s.running) :
    Addressed { s with running := running, toClient := s.toClient ++ [(requestID, a)] } where
  client := ha.client
  seq := ha.seq
  toServer := ha.toServer
  running id hid := ha.running id (hsub id hid)
  toClient r hr' := by
    obtain hr' | hr' := mem_append.1 hr'
    · exact ha.toClient r hr'
    · obtain rfl := mem_singleton.1 hr'
      obtain ⟨i, hown⟩ := ha.running requestID hr
      refine ⟨⟨i, hkind ▸ hown⟩, ?_⟩
      rintro rfl
      cases hkind

lemma Addressed.step (ha : s.Addressed) {e : SystemEvent V} (hok : s.agrees h e = true)
    (hs : s.step h rate e = some s') : s'.Addressed := by
  cases e with
  | client e =>
    unfold System.step at hs
    dsimp only at hs
    split at hs
    · cases hs
    · obtain ⟨c, hc, rfl⟩ := Option.map_eq_some_iff.1 hs
      refine ha.stepClient hc ?_ s.toClient fun _ hr => hr
      rintro i rfl
      exact of_decide_eq_true hok
  | receive =>
    unfold System.step at hs
    dsimp only at hs
    split at hs
    · cases hs
    · next requestID a rest hclient =>
      obtain ⟨c, hc, rfl⟩ := Option.map_eq_some_iff.1 hs
      have hstep := ha.stepClient hc nofun rest fun r hr => hclient ▸ mem_cons_of_mem _ hr
      rw [show Event.written (.read (.read (a.message requestID))) = [] from rfl,
        append_nil] at hstep
      exact hstep
  | handle reply => exact ha.handle hok hs
  | refill =>
    cases hs
    exact ⟨ha.client, ha.seq, ha.toServer, ha.running, ha.toClient⟩
  | streamSend requestID body =>
    unfold System.step at hs
    dsimp only at hs
    split at hs <;> cases hs
    next hr => exact ha.stream hr rfl fun _ hid => hid
  | streamReturn requestID err =>
    unfold System.step at hs
    dsimp only at hs
    split at hs <;> cases hs
    next hr =>
      refine ha.stream hr ?_ fun _ hid => mem_of_mem_erase hid
      cases err <;> rfl

/-- **Every response to an outstanding request is delivered**, in a run whose steps meet the
condition: `readLoop` takes the future or the stream of the request from its map with what the
server has answered, and an answer that ends the request completes it.

**Proof sketch.** By the invariant the response has the kind of the call with its number, and no
other call has this number. The call has returned and is not complete, so by the invariant of the
client its entry is in the map of its kind. -/
theorem responses_delivered (h : Server V) (rate : ℕ) {es : List (SystemEvent V)} {s : System}
    (hrun : Runs.run (step h rate) { tokens := rate } es = some s)
    (hok : Runs.along (step h rate) (agrees h) { tokens := rate } es = true)
    {requestID i : ℕ} {a : Answer} {rest : List (ℕ × Answer)}
    (hnext : s.toClient = (requestID, a) :: rest) (hreader : s.client.reader = .reading)
    (hid : (s.client.calls i).seq = requestID) (hpc : (s.client.calls i).pc = .returned)
    (hc : (s.client.calls i).complete = false) :
    ∃ s', step h rate s .receive = some s' ∧ s'.client.reader = a.delivery i ∧
      ∀ r, a.delivery i = .finishing i r →
        ∃ s'', step h rate s' (.client (.read .finish)) = some s'' ∧
          (s''.client.calls i).completions = [r] := by
  have hinv : s.Addressed :=
    Runs.along_invariant (fun _ _ _ ha hok hs => ha.step hok hs) (addressed_init rate) hok hrun
  obtain ⟨⟨j, hj⟩, htext⟩ := hinv.toClient _ (hnext ▸ mem_cons_self)
  have hi : s.client.Own (s.client.calls i).kind requestID i :=
    ⟨rfl, hid, hinv.client.numbering.pos i (by rw [hpc]; rfl)⟩
  obtain rfl := hi.unique hj hinv.client.numbering hinv.seq
  have hentry : s.client.entry a.kind requestID = some i := by
    obtain ⟨r, hr⟩ | ⟨htable, -⟩ := (hinv.client.kept hinv.seq).waits i (by rw [hpc]; rfl) hc
    · rw [hreader] at hr
      cases hr
    · unfold TCPClient.InTable at htable
      rw [hid, hj.1] at htable
      exact htable
  set c := TCPClient.route
    { s.client with received := s.client.received ++ [a.message requestID] }
    (a.message requestID) with hroute
  have hdelivery : c.reader = a.delivery i :=
    route_delivery ((TCPClient.entry_congr rfl rfl _ _).trans hentry) htext
  refine ⟨{ s with client := c, toClient := rest }, ?_, hdelivery, fun r hr => ?_⟩
  · unfold step
    rw [hnext]
    dsimp only [TCPClient.step, TCPClient.stepRead]
    rw [if_pos hreader]
    rfl
  · rw [hr] at hdelivery
    refine ⟨{ s with
      client := TCPClient.modify { c with reader := .reading } i fun c => c.done r
      toClient := rest }, ?_, ?_⟩
    · unfold step
      dsimp only [TCPClient.step, TCPClient.stepRead]
      rw [hdelivery, show Event.written (.read .finish) = [] from rfl, append_nil]
      rfl
    · rw [TCPClient.modify_calls_self]
      rw [TCPClient.route_calls]
      unfold Call.done
      rw [if_neg (Bool.eq_false_iff.1 hc), hinv.client.sourced.waiting hc]
      rfl

/-! ## Runs with one call -/

/-- A codec for values without content. -/
def unitCodec : Codec Unit where
  Marshal _ := .ok []
  Unmarshal _ _ := .ok ()

/-- `func(*Request, *Reply) error`. -/
def plainSignature : Signature where
  numIn := 2
  numOut := 1
  in0Elem := 0
  in1Elem := 0
  in0Context := false
  in0Pointer := true
  in1Pointer := true
  in1Stream := false
  out0Pointer := false
  out0Error := true
  out1Error := false

/-- A server with one service, whose methods are all unary. -/
def plainServer : Server Unit where
  services name := if name = "Arith" then some fun _ => some plainSignature else none
  codecs _ := none
  codec := unitCodec

/-- A call that is written, and handled by the server. -/
def callOnce (kind : Kind) (msg : Message) (reply : Except String (Option Unit)) :
    List (SystemEvent Unit) :=
  [.client (.send 0 (.begin kind msg)), .client (.send 0 .nextSeq), .client (.send 0 .store),
    .client (.send 0 .check), .client (.send 0 (.write true)), .handle reply]

/-- A unary call whose method fails. -/
theorem responses_delivered_method_fails :
    ∃ s s', Runs.run (step plainServer 10) { tokens := 10 }
        (callOnce .unary { serviceName := "Arith", methodName := "Div" } (.error "by zero")) =
          some s ∧
      step plainServer 10 s .receive = some s' ∧
      s'.client.reader = .finishing 0 (.error (.text "by zero")) := by
  obtain ⟨s, hs, hnext, hreader, hid, hpc, hc⟩ : ∃ s, Runs.run (step plainServer 10)
      { tokens := 10 } (callOnce .unary { serviceName := "Arith", methodName := "Div" }
        (.error "by zero")) = some s ∧ s.toClient = [(1, .error "by zero")] ∧
      s.client.reader = .reading ∧ (s.client.calls 0).seq = 1 ∧
      (s.client.calls 0).pc = .returned ∧ (s.client.calls 0).complete = false := by
    decide +kernel
  obtain ⟨s', hs', hdelivery, -⟩ :=
    responses_delivered plainServer 10 hs (by decide +kernel) hnext hreader hid hpc hc
  exact ⟨s, s', hs, hs', hdelivery⟩

/-- `SendStream` to a service that does not exist: the error arrives without the flag of a stream,
`readLoop` looks for a future, finds none and drops it. The stream stays open. -/
theorem response_dropped :
    ∃ s s', Runs.run (step plainServer 10) { tokens := 10 }
        (callOnce .stream { serviceName := "Nope", methodName := "Watch" } (.ok none)) = some s ∧
      s.toClient = [(1, .error ("service not found: " ++ "Nope"))] ∧
      s.client.reader = .reading ∧ (s.client.calls 0).seq = 1 ∧
      (s.client.calls 0).pc = .returned ∧ (s.client.calls 0).complete = false ∧
      step plainServer 10 s .receive = some s' ∧
      s'.toClient = [] ∧ s'.client.reader = .reading ∧ (s'.client.calls 0).completions = [] := by
  refine ⟨_, _, rfl, ?_, rfl, rfl, rfl, rfl, rfl, rfl, rfl, rfl⟩
  rfl

end System

end Yukino.Rpc
