import Mathlib
import Yukino.Lib.Runs

set_option autoImplicit false

/-!
# The client of a connection of `libs/yukino_rpc`

A `TCPClient` sends requests from many goroutines over one connection. A request gets the next
number, its future or stream is stored under this number, and `readLoop` routes each response by its
`StreamFlag` and number. `shutdown` closes the connection and completes what is still stored.

## Main definitions

* `TCPClient` — the client, with every call and how far it has come.
* `TCPClient.step` — a step of a call, of `readLoop` or of `shutdown`.

## Design

A step is one access to the `closed` flag, to the counter or to a map, one write or read of the
connection, or one completion, so that a run is an interleaving of these. `SendAsyncWithCodec` and
`SendStream` differ in the map they use only; a `Kind` stands for the map. `closed` is set exactly
when a `shutdown` has begun, so it is read off from `sweep`.

`Range` visits every key that is in the map from its beginning to its end; it may also visit a key
that is stored meanwhile. A write to a closed connection fails, and any other write may fail.
The codec of a call is left out.
-/

namespace Yukino.Rpc

open AList

abbrev Bytes := List UInt8

inductive StreamFlag
  | StreamNone
  | StreamData
  | StreamEnd
  | StreamError
  deriving DecidableEq

def CompressionNone : ℕ := 0

def CompressionGzip : ℕ := 1

structure Header where
  requestID : ℕ := 0
  serviceName : String := ""
  methodName : String := ""
  error : String := ""
  codecType : ℕ := 0
  compression : ℕ := CompressionNone
  streamFlag : StreamFlag := .StreamNone
  deriving DecidableEq

/-- A message, with its header. -/
structure Message extends Header where
  body : Bytes := []
  deriving DecidableEq

inductive Err
  | eof
  /-- An error with its text. -/
  | text (message : String)
  deriving DecidableEq

/-- What a future is completed with, or a stream terminated: a stream always ends in an error. -/
abbrev Result := Except Err Bytes

/-- A call is one of `SendAsyncWithCodec` with a future, or one of `SendStream` with a stream. -/
inductive Kind
  | unary
  | stream
  deriving DecidableEq

/-- How far a call of `SendAsyncWithCodec` or `SendStream` has come. -/
inductive Pc
  | idle
  /-- It has found the connection open. -/
  | started
  | numbered
  | stored
  /-- It has found the connection closed when it looked again. -/
  | closing
  | checked
  | writeFailed
  /-- It has returned its future or stream. -/
  | returned
  /-- It has returned an error. -/
  | refused
  deriving DecidableEq

structure Call where
  pc : Pc := .idle
  kind : Kind := .unary
  msg : Message := {}
  /-- The value of the counter for this call, which counts from one. -/
  ticket : ℕ := 0
  complete : Bool := false
  /-- What the future was completed with, or the stream terminated. -/
  completions : List Result := []
  /-- The frames in the channel of a stream. -/
  frames : List Bytes := []
  /-- The context of the stream is cancelled. -/
  cancelled : Bool := false

namespace Call

/-- The `RequestID`. -/
def seq (c : Call) : ℕ := c.ticket % 2 ^ 64

/-- `Future.Done`, and `terminate` of a stream. -/
def done (c : Call) (r : Result) : Call :=
  if c.complete then c else { c with complete := true, completions := c.completions ++ [r] }

/-- The call has not returned yet. -/
def inProgress (c : Call) : Bool :=
  c.pc ≠ .idle ∧ c.pc ≠ .returned ∧ c.pc ≠ .refused

end Call

abbrev Table := AList fun _ : ℕ => ℕ

/-- What `readLoop` is about to do. -/
inductive Reader
  | reading
  | finishing (call : ℕ) (r : Result)
  | pushing (call : ℕ) (body : Bytes)
  | stopped
  deriving DecidableEq

/-- What `shutdown` is about to do, with the keys that `Range` still has to visit. -/
inductive Sweep
  | idle
  | closing
  | starting (kind : Kind)
  | ranging (kind : Kind) (remaining : List ℕ)
  | visiting (kind : Kind) (remaining : List ℕ) (key call : ℕ)
  | deleting (kind : Kind) (remaining : List ℕ) (key : ℕ)
  | finished
  deriving DecidableEq

structure TCPClient where
  calls : ℕ → Call := fun _ => {}
  /-- The calls of `nextSeq`. -/
  seq : ℕ := 0
  pending : Table := ∅
  streams : Table := ∅
  reader : Reader := .reading
  sweep : Sweep := .idle
  connOpen : Bool := true
  /-- The error of the `shutdown`. -/
  err : String := ""
  /-- The messages that `readLoop` has read. -/
  received : List Message := []

/-- What the message completes a future with, or terminates a stream. -/
def Message.outcome (m : Message) : Result :=
  match m.streamFlag with
  | .StreamEnd => .error .eof
  | .StreamError => .error (.text m.error)
  | _ => if m.error ≠ "" then .error (.text m.error) else .ok m.body

namespace TCPClient

def closed (s : TCPClient) : Bool := s.sweep ≠ .idle

/-- `pending` or `streams`. -/
def table (s : TCPClient) : Kind → Table
  | .unary => s.pending
  | .stream => s.streams

def setTable (s : TCPClient) (k : Kind) (t : Table) : TCPClient :=
  match k with
  | .unary => { s with pending := t }
  | .stream => { s with streams := t }

def modify (s : TCPClient) (i : ℕ) (f : Call → Call) : TCPClient :=
  { s with calls := Function.update s.calls i (f (s.calls i)) }

def goto (s : TCPClient) (i : ℕ) (pc : Pc) : TCPClient :=
  s.modify i fun c => { c with pc := pc }

def Delete (s : TCPClient) (k : Kind) (key : ℕ) : TCPClient :=
  s.setTable k ((s.table k).erase key)

def Store (s : TCPClient) (k : Kind) (key i : ℕ) : TCPClient :=
  s.setTable k ((s.table k).insert key i)

/-- `LoadAndDelete` in `readLoop`, for a message that completes or terminates. -/
def take (s : TCPClient) (k : Kind) (m : Message) : TCPClient :=
  match (s.table k).lookup m.requestID with
  | some i => { s.Delete k m.requestID with reader := .finishing i m.outcome }
  | none => s

/-- The switch of `readLoop`, up to the access to a map. -/
def route (s : TCPClient) (m : Message) : TCPClient :=
  match m.streamFlag with
  | .StreamData =>
    match s.streams.lookup m.requestID with
    | some i => { s with reader := .pushing i m.body }
    | none => s
  | .StreamEnd | .StreamError => s.take .stream m
  | .StreamNone => s.take .unary m

end TCPClient

/-- The steps of a call of `SendAsyncWithCodec` or `SendStream`. -/
inductive SendEvent
  | begin (kind : Kind) (msg : Message)
  | nextSeq
  | store
  | check
  | withdraw
  | write (ok : Bool)
  | giveUp

/-- The steps of `readLoop`. -/
inductive ReadEvent
  | read (m : Message)
  | readError
  | finish
  | push
  | skip

/-- The steps of `shutdown`. -/
inductive ShutdownEvent
  | begin (err : String)
  | closeConn
  | range
  | visit (key : ℕ)
  | done
  | delete
  | rangeEnd

inductive Event
  | send (i : ℕ) (e : SendEvent)
  | read (e : ReadEvent)
  | shutdown (e : ShutdownEvent)
  /-- The consumer of a stream takes a frame. -/
  | recv (i : ℕ)
  /-- The context of a stream is cancelled. -/
  | cancel (i : ℕ)

namespace TCPClient

def stepSend (s : TCPClient) (i : ℕ) : SendEvent → Option TCPClient
  | .begin kind msg =>
    if (s.calls i).pc = .idle then
      some (s.modify i fun c =>
        { c with kind := kind, msg := msg, pc := if s.closed then .refused else .started })
    else none
  | .nextSeq =>
    if (s.calls i).pc = .started then
      some (modify { s with seq := s.seq + 1 } i fun c =>
        { c with ticket := s.seq + 1, pc := .numbered })
    else none
  | .store =>
    if (s.calls i).pc = .numbered then
      some ((s.Store (s.calls i).kind (s.calls i).seq i).goto i .stored)
    else none
  | .check =>
    if (s.calls i).pc = .stored then
      some (s.goto i (if s.closed then .closing else .checked))
    else none
  | .withdraw =>
    if (s.calls i).pc = .closing then
      if ((s.table (s.calls i).kind).lookup (s.calls i).seq).isSome then
        some ((s.Delete (s.calls i).kind (s.calls i).seq).goto i .refused)
      else some (s.goto i .checked)
    else none
  | .write ok =>
    if (s.calls i).pc = .checked ∧ (ok = true → s.connOpen = true) then
      some (s.goto i (if ok then .returned else .writeFailed))
    else none
  | .giveUp =>
    if (s.calls i).pc = .writeFailed then
      some ((s.Delete (s.calls i).kind (s.calls i).seq).goto i .refused)
    else none

def stepRead (s : TCPClient) : ReadEvent → Option TCPClient
  | .read m =>
    if s.reader = .reading then some (route { s with received := s.received ++ [m] } m)
    else none
  | .readError => if s.reader = .reading then some { s with reader := .stopped } else none
  | .finish =>
    match s.reader with
    | .finishing i r => some (modify { s with reader := .reading } i fun c => c.done r)
    | _ => none
  | .push =>
    match s.reader with
    | .pushing i body =>
      if (s.calls i).frames.length < 64 then
        some (modify { s with reader := .reading } i fun c =>
          { c with frames := c.frames ++ [body] })
      else none
    | _ => none
  | .skip =>
    match s.reader with
    | .pushing i _ =>
      if (s.calls i).cancelled ∨ (s.calls i).complete then some { s with reader := .reading }
      else none
    | _ => none

def stepShutdown (s : TCPClient) : ShutdownEvent → Option TCPClient
  | .begin err =>
    if s.sweep = .idle then some { s with sweep := .closing, err := err } else none
  | .closeConn =>
    if s.sweep = .closing then some { s with connOpen := false, sweep := .starting .unary }
    else none
  | .range =>
    match s.sweep with
    | .starting k => some { s with sweep := .ranging k (s.table k).keys }
    | _ => none
  | .visit key =>
    match s.sweep with
    | .ranging k remaining =>
      let remaining := remaining.filter (· ≠ key)
      match (s.table k).lookup key with
      | some i => some { s with sweep := .visiting k remaining key i }
      | none => some { s with sweep := .ranging k remaining }
    | _ => none
  | .done =>
    match s.sweep with
    | .visiting k remaining key i =>
      some (modify { s with sweep := .deleting k remaining key } i fun c =>
        c.done (.error (.text s.err)))
    | _ => none
  | .delete =>
    match s.sweep with
    | .deleting k remaining key =>
      some (Delete { s with sweep := .ranging k remaining } k key)
    | _ => none
  | .rangeEnd =>
    match s.sweep with
    | .ranging .unary [] => some { s with sweep := .starting .stream }
    | .ranging .stream [] => some { s with sweep := .finished }
    | _ => none

def step (s : TCPClient) : Event → Option TCPClient
  | .send i e => s.stepSend i e
  | .read e => s.stepRead e
  | .shutdown e => s.stepShutdown e
  | .recv i =>
    match (s.calls i).frames with
    | _ :: frames => some (s.modify i fun c => { c with frames := frames })
    | [] => none
  | .cancel i => some (s.modify i fun c => { c with cancelled := true })

/-! ## Fields after an update -/

section Fields

variable (s : TCPClient) (i : ℕ) (f : Call → Call) (k : Kind) (t : Table) (key : ℕ)

@[simp] lemma modify_calls_self : (s.modify i f).calls i = f (s.calls i) :=
  Function.update_self ..

lemma modify_calls_ne {j : ℕ} (h : j ≠ i) : (s.modify i f).calls j = s.calls j :=
  Function.update_of_ne h ..

@[simp] lemma setTable_calls : (s.setTable k t).calls = s.calls := by
  cases k <;> rfl

@[simp] lemma setTable_seq : (s.setTable k t).seq = s.seq := by
  cases k <;> rfl

@[simp] lemma setTable_reader : (s.setTable k t).reader = s.reader := by
  cases k <;> rfl

@[simp] lemma setTable_sweep : (s.setTable k t).sweep = s.sweep := by
  cases k <;> rfl

@[simp] lemma setTable_err : (s.setTable k t).err = s.err := by
  cases k <;> rfl

@[simp] lemma setTable_received : (s.setTable k t).received = s.received := by
  cases k <;> rfl

/-- The entry of a map. -/
def entry (s : TCPClient) (k : Kind) (key : ℕ) : Option ℕ :=
  (s.table k).lookup key

lemma entry_congr {s s' : TCPClient} (hp : s'.pending = s.pending) (hs : s'.streams = s.streams)
    (k : Kind) (key : ℕ) : s'.entry k key = s.entry k key := by
  cases k with
  | unary => exact congrArg (lookup key) hp
  | stream => exact congrArg (lookup key) hs

@[simp] lemma goto_calls_self (pc : Pc) : (s.goto i pc).calls i = { s.calls i with pc := pc } :=
  modify_calls_self ..

@[simp] lemma goto_entry (pc : Pc) : (s.goto i pc).entry k key = s.entry k key :=
  entry_congr rfl rfl k key

lemma entry_setTable (k' : Kind) (key : ℕ) :
    (s.setTable k t).entry k' key = if k' = k then t.lookup key else s.entry k' key := by
  cases k <;> cases k' <;> rfl

lemma entry_Delete (k' : Kind) (key' : ℕ) : (s.Delete k key).entry k' key' =
    if k' = k ∧ key' = key then none else s.entry k' key' := by
  rw [Delete, entry_setTable]
  by_cases hkey : key' = key
  · subst hkey
    simp [lookup_erase]
  · simp only [lookup_erase_ne hkey, hkey, and_false, if_false]
    exact ite_eq_right_iff.2 fun hk => hk ▸ rfl

lemma entry_Store (k' : Kind) (key' : ℕ) : (s.Store k key i).entry k' key' =
    if k' = k ∧ key' = key then some i else s.entry k' key' := by
  rw [Store, entry_setTable]
  by_cases hkey : key' = key
  · subst hkey
    simp [lookup_insert]
  · simp only [lookup_insert_ne hkey, hkey, and_false, if_false]
    exact ite_eq_right_iff.2 fun hk => hk ▸ rfl

end Fields

end TCPClient

end Yukino.Rpc
