import Yukino.Lib.BigEndian
import Yukino.Lib.Outcome

set_option autoImplicit false

/-!
# WebSocket connections of `libs/yukino_http`

The server side of a WebSocket connection: frames are read from the bytes that the client sends, and
put together to messages.

## Main definitions

* `WebSocket.readFrame`, `WebSocket.readMessage`,
  `WebSocket.ReadMessage` — reading a frame, a message or control frame, and a data
  message.
* `WebSocket.transcript` — `ReadMessage` called until it reports an error.
* `WebSocket.writeFrame` — the bytes of a frame of the server.

## Design

The connection is the list of the bytes that the client sends before it ends the connection; a read
behind them is an error of the connection. Writes succeed. A loop ends since each frame takes some
of the bytes. The callbacks of a connection are left out.
-/

namespace Yukino.Http.WebSocket

open Outcome List

abbrev Bytes := List UInt8

inductive Err
  | ErrWSInvalidFrame
  | ErrWSClosed
  /-- The error of a read from the connection. -/
  | eof
  deriving DecidableEq

def continuationFrame : ℕ := 0
def TextMessage : ℕ := 1
def BinaryMessage : ℕ := 2
def CloseMessage : ℕ := 8
def PingMessage : ℕ := 9
def PongMessage : ℕ := 10

/-- `messageLimit`, for the value of `maxMessageSize`. -/
def messageLimit (maxMessageSize : ℤ) : ℕ :=
  if maxMessageSize > 0 then maxMessageSize.toNat else 65536

/-- `io.ReadFull`. -/
def readFull (n : ℕ) (stream : Bytes) : Except Err (Bytes × Bytes) :=
  if stream.length < n then .error .eof else .ok (stream.take n, stream.drop n)

/-- The loop of `readFrame` over the payload. -/
def unmask (maskKey payload : Bytes) : Bytes :=
  payload.mapIdx fun i b => b ^^^ maskKey.getD (i % 4) 0

/-- The switch over the opcode in `readFrame`. -/
def validOpcode (opcode : ℕ) (fin : Bool) (length : ℕ) : Bool :=
  if opcode = continuationFrame ∨ opcode = TextMessage ∨ opcode = BinaryMessage then true
  else if opcode = CloseMessage ∨ opcode = PingMessage ∨ opcode = PongMessage then
    fin && length ≤ 125
  else false

/-- The length of the payload, which the second byte of the header has or announces. -/
def readLength (length : ℕ) (stream : Bytes) : Except Err (ℕ × Bytes) :=
  if length = 126 then do
    let (ext, stream) ← readFull 2 stream
    return (BigEndian.read ext, stream)
  else if length = 127 then do
    let (ext, stream) ← readFull 8 stream
    return (BigEndian.read ext, stream)
  else .ok (length, stream)

/-- What `readFrame` returns. -/
structure Received where
  opcode : ℕ
  fin : Bool
  payload : Bytes

/-- `readFrame` behind the checks of the header. -/
def readPayload (limit length : ℕ) (stream : Bytes) : Except Err (Bytes × Bytes) := do
  let (length, stream) ← readLength length stream
  if limit < length then .error .ErrWSInvalidFrame
  else
    let (maskKey, stream) ← readFull 4 stream
    let (payload, stream) ← readFull length stream
    return (unmask maskKey payload, stream)

def readFrame (limit : ℕ) : Bytes → Except Err (Received × Bytes)
  | h0 :: h1 :: stream =>
    let fin : Bool := h0 &&& 0x80 ≠ 0
    let opcode := (h0 &&& 0x0F).toNat
    let masked : Bool := h1 &&& 0x80 ≠ 0
    let length := (h1 &&& 0x7F).toNat
    if h0 &&& 0x70 ≠ 0 then .error .ErrWSInvalidFrame
    else if !validOpcode opcode fin length then .error .ErrWSInvalidFrame
    else if !masked then .error .ErrWSInvalidFrame
    else do
      let (payload, stream) ← readPayload limit length stream
      return (⟨opcode, fin, payload⟩, stream)
  | _ => .error .eof

/-! ## Every frame takes some bytes -/

lemma readFull_ensures (n : ℕ) (stream : Bytes) : Ensures (readFull n stream) fun p =>
    p.1.length = n ∧ p.2.length ≤ stream.length := by
  unfold readFull
  split_ifs with hlen
  · exact .error _
  · refine .ok ?_
    rw [length_take, length_drop]
    omega

lemma readLength_ensures (length : ℕ) (stream : Bytes) :
    Ensures (readLength length stream) fun p => p.2.length ≤ stream.length := by
  unfold readLength
  split_ifs
  · exact (readFull_ensures 2 stream).bind fun p hp => .ok hp.2
  · exact (readFull_ensures 8 stream).bind fun p hp => .ok hp.2
  · exact .ok le_rfl

lemma readPayload_ensures (limit length : ℕ) (stream : Bytes) :
    Ensures (readPayload limit length stream) fun p =>
      p.1.length ≤ limit ∧ p.2.length ≤ stream.length := by
  refine (readLength_ensures length stream).bind fun ⟨length, stream₁⟩ h₁ => ?_
  dsimp only
  split_ifs with hlimit
  · exact .error _
  refine (readFull_ensures 4 stream₁).bind fun ⟨maskKey, stream₂⟩ h₂ => ?_
  refine (readFull_ensures length stream₂).bind fun ⟨payload, stream₃⟩ h₃ => .ok ⟨?_, ?_⟩
  · unfold unmask
    rw [length_mapIdx, h₃.1]
    exact not_lt.1 hlimit
  · exact (h₃.2.trans h₂.2).trans h₁

/-- **What `readFrame` returns is within the limit**, and it has taken some bytes. -/
lemma readFrame_ensures (limit : ℕ) (stream : Bytes) : Ensures (readFrame limit stream) fun p =>
    p.1.payload.length ≤ limit ∧ p.2.length < stream.length := by
  unfold readFrame
  split
  · next h0 h1 stream =>
    dsimp only
    split_ifs
    · exact .error _
    · exact .error _
    · exact .error _
    · refine (readPayload_ensures limit _ stream).bind fun ⟨payload, rest⟩ h => .ok ⟨h.1, ?_⟩
      exact Nat.lt_succ_of_le (h.2.trans (Nat.le_succ _))
  · exact .error _

/-! ## Messages -/

/-- The loop of `readMessage`, with the type and the bytes of the message so far. -/
def readMessage (limit : ℕ) (msgType : ℕ) (buf stream : Bytes) :
    Except Err ((ℕ × Bytes) × Bytes) :=
  match h : readFrame limit stream with
  | .error e => .error e
  | .ok (f, rest) =>
    have : rest.length < stream.length := (readFrame_ensures limit stream _ h).2
    if f.opcode = CloseMessage ∨ f.opcode = PingMessage ∨ f.opcode = PongMessage then
      .ok ((f.opcode, f.payload), rest)
    else if f.opcode = continuationFrame then
      if msgType = 0 then .error .ErrWSInvalidFrame
      else if limit < buf.length + f.payload.length then .error .ErrWSInvalidFrame
      else if f.fin then .ok ((msgType, buf ++ f.payload), rest)
      else readMessage limit msgType (buf ++ f.payload) rest
    else if msgType ≠ 0 then .error .ErrWSInvalidFrame
    else if f.fin then .ok ((f.opcode, f.payload), rest)
    else readMessage limit f.opcode (buf ++ f.payload) rest
termination_by stream.length

lemma readMessage_of_error {limit : ℕ} {stream : Bytes} {e : Err}
    (h : readFrame limit stream = .error e) (msgType : ℕ) (buf : Bytes) :
    readMessage limit msgType buf stream = .error e := by
  rw [readMessage]
  split <;> simp_all

/-- One round of the loop. -/
lemma readMessage_of_ok {limit : ℕ} {stream rest : Bytes} {f : Received}
    (h : readFrame limit stream = .ok (f, rest)) (msgType : ℕ) (buf : Bytes) :
    readMessage limit msgType buf stream =
      if f.opcode = CloseMessage ∨ f.opcode = PingMessage ∨ f.opcode = PongMessage then
        .ok ((f.opcode, f.payload), rest)
      else if f.opcode = continuationFrame then
        if msgType = 0 then .error .ErrWSInvalidFrame
        else if limit < buf.length + f.payload.length then .error .ErrWSInvalidFrame
        else if f.fin then .ok ((msgType, buf ++ f.payload), rest)
        else readMessage limit msgType (buf ++ f.payload) rest
      else if msgType ≠ 0 then .error .ErrWSInvalidFrame
      else if f.fin then .ok ((f.opcode, f.payload), rest)
      else readMessage limit f.opcode (buf ++ f.payload) rest := by
  rw [readMessage]
  split <;> simp_all

lemma readMessage_ensures (limit : ℕ) {msgType : ℕ} {buf : Bytes} (stream : Bytes) :
    Ensures (readMessage limit msgType buf stream) fun p =>
      p.1.2.length ≤ limit ∧ p.2.length < stream.length := by
  fun_induction readMessage limit msgType buf stream with
  | case1 msgType buf stream e h => exact .error e
  | case2 msgType buf stream f rest h hlt hcontrol =>
    exact .ok (readFrame_ensures limit stream _ h)
  | case3 buf stream f rest h hlt hcontrol hcont => exact .error _
  | case4 => exact .error _
  | case5 msgType buf stream f rest h hlt hcontrol hcont hopen hlimit hfin =>
    refine .ok ⟨?_, hlt⟩
    rw [length_append]
    exact not_lt.1 hlimit
  | case6 msgType buf stream f rest h hlt hcontrol hcont hopen hlimit hfin ih =>
    exact ih.mono fun p hp => ⟨hp.1, hp.2.trans hlt⟩
  | case7 => exact .error _
  | case8 msgType buf stream f rest h hlt hcontrol hcont hopen hfin =>
    exact .ok (readFrame_ensures limit stream _ h)
  | case9 msgType buf stream f rest h hlt hcontrol hcont hopen hfin ih =>
    exact ih.mono fun p hp => ⟨hp.1, hp.2.trans hlt⟩

/-- The header of `writeFrame`. -/
def frameHeader (opcode length : ℕ) : Bytes :=
  let first : UInt8 := 0x80 ||| UInt8.ofNat opcode
  if length ≤ 125 then [first, UInt8.ofNat length]
  else if length ≤ 65535 then first :: 126 :: BigEndian.put 2 length
  else first :: 127 :: BigEndian.put 8 length

/-- The bytes that `writeFrame` writes. -/
def writeFrame (opcode : ℕ) (payload : Bytes) : Bytes :=
  frameHeader opcode payload.length ++ payload

/-- The code of `parseClosePayload`. -/
def closeCode (payload : Bytes) : ℕ :=
  if payload.length < 2 then 1000 else BigEndian.read (payload.take 2)

/-- `writeCloseFrame`, with the payload of `formatClosePayload` without a text. -/
def writeCloseFrame (code : ℕ) : Bytes :=
  writeFrame CloseMessage (BigEndian.put 2 code)

/-- The method `ReadMessage`: what it writes, and what it returns. -/
def ReadMessage (limit : ℕ) (stream : Bytes) : List Bytes × Except Err ((ℕ × Bytes) × Bytes) :=
  match h : readMessage limit 0 [] stream with
  | .error e => ([], .error e)
  | .ok ((opcode, payload), rest) =>
    have : rest.length < stream.length := (readMessage_ensures limit stream _ h).2
    if opcode = PingMessage then
      let (written, result) := ReadMessage limit rest
      (writeFrame PongMessage payload :: written, result)
    else if opcode = PongMessage then ReadMessage limit rest
    else if opcode = CloseMessage then
      ([writeCloseFrame (closeCode payload)], .error .ErrWSClosed)
    else if opcode = TextMessage ∨ opcode = BinaryMessage then
      ([], .ok ((opcode, payload), rest))
    else ([], .error .ErrWSInvalidFrame)
termination_by stream.length

lemma ReadMessage_ensures (limit : ℕ) (stream : Bytes) :
    Ensures (ReadMessage limit stream).2 fun p =>
      p.1.2.length ≤ limit ∧ p.2.length < stream.length := by
  fun_induction ReadMessage limit stream with
  | case1 stream e h => exact .error e
  | case2 stream payload rest written result hrec h hlt ih =>
    rw [hrec] at ih
    exact ih.mono fun p hp => ⟨hp.1, hp.2.trans hlt⟩
  | case3 stream payload rest h hlt hping ih =>
    exact ih.mono fun p hp => ⟨hp.1, hp.2.trans hlt⟩
  | case4 => exact .error _
  | case5 stream opcode payload rest h hlt hping hpong hclose hdata =>
    exact .ok (readMessage_ensures limit stream _ h)
  | case6 => exact .error _

/-- What is seen of a connection: the bytes written, and the messages that `ReadMessage` returns. -/
inductive Event
  | wrote (bytes : Bytes)
  | message (messageType : ℕ) (data : Bytes)
  deriving DecidableEq

/-- `ReadMessage` called until it reports an error. -/
def transcript (limit : ℕ) (stream : Bytes) : List Event × Err :=
  match h : ReadMessage limit stream with
  | (written, .error e) => (written.map .wrote, e)
  | (written, .ok ((messageType, data), rest)) =>
    have : rest.length < stream.length := by
      have hens := ReadMessage_ensures limit stream
      rw [h] at hens
      exact (hens _ rfl).2
    let (events, e) := transcript limit rest
    (written.map .wrote ++ .message messageType data :: events, e)
termination_by stream.length

end Yukino.Http.WebSocket
