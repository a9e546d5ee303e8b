import Yukino.Lib.BigEndian
import Yukino.Lib.Framing
import Yukino.Lib.Outcome
import Yukino.Rpc.TcpClient

set_option autoImplicit false

/-!
# Packets of `libs/yukino_rpc`

A message is sent as a packet: a magic number, the lengths of the header and of the body, and these
two. The receiver collects what it reads from the connection in a `PacketBuffer` and takes the
packets out of it.

## Main definitions

* `Protocol.encode`, `Protocol.decode` — a message and its packet.
* `PacketBuffer.read` — the next packet of the buffer.
* `TCPConnection.read` — the next message of a connection.

## Main results

* `Protocol.encode_eq` — a message is sent as a packet, which is decoded to the message.
* `PacketBuffer.isFrame_packet` — what `Read` does to a packet and to its parts.
* `PacketBuffer.read_packets` — the packets come out in order, however they are cut.
* `TCPConnection.read_messages` — a connection returns the messages one after another.
* `TCPConnection.exists_stream` — the messages of a client or a server can be sent.
* `Protocol.decode_ne_panic_iff` — which buffers make `Decode` slice out of range.

## Design

The JSON codec of the header and the compressors are parameters, with the assumption that they read
back what they wrote. `uint32` arithmetic is taken modulo `2 ^ 32`, and a slice that is out of
range panics.
-/

namespace Yukino.Rpc

open Outcome List

namespace Protocol

/-- The bytes `0x12`, `0x34`. -/
def Magic : ℕ := 0x1234

/-- A message; its header is a pointer. -/
structure Message where
  header : Option Header
  body : Bytes
  deriving DecidableEq

/-- A message of a client or a server, whose header is never nil. -/
def Message.of (msg : Rpc.Message) : Message :=
  ⟨some msg.toHeader, msg.body⟩

inductive Fault
  | text (message : String)
  | panic
  deriving DecidableEq

/-- The JSON codec of a header, and the compressors. -/
structure Codec where
  marshal : Header → Except Fault Bytes
  unmarshal : Bytes → Except Fault Header
  compress : Bytes → ℕ → Except Fault Bytes
  decompress : Bytes → ℕ → Except Fault Bytes

/-- The codec reads back what it wrote. -/
structure Codec.RoundTrips (c : Codec) : Prop where
  unmarshal_marshal : ∀ header bytes, c.marshal header = .ok bytes → c.unmarshal bytes = .ok header
  decompress_compress : ∀ body type bytes, c.compress body type = .ok bytes →
    c.decompress bytes type = .ok body

variable (c : Codec)

/-! ## `Encode` -/

/-- `copy(buf[start:], src)`. -/
def copyAt (buf : Bytes) (start : ℕ) (src : Bytes) : Except Fault Bytes :=
  if start ≤ buf.length then
    .ok (buf.take start ++ src.take (buf.length - start) ++ buf.drop (start + src.length))
  else .error .panic

/-- `PutUint16` and `PutUint32` into a slice of the buffer. -/
def putAt (buf : Bytes) (start width n : ℕ) : Except Fault Bytes :=
  if start + width ≤ buf.length then copyAt buf start (BigEndian.put width n) else .error .panic

/-- The body as it is sent. -/
def compressBody (header : Header) (body : Bytes) : Except Fault Bytes :=
  if header.compression ≠ CompressionNone then c.compress body header.compression else .ok body

/-- The header and the body as they are sent. -/
def parts (msg : Message) : Except Fault (Bytes × Bytes) :=
  match msg.header with
  | none => .error (.text "header is nil")
  | some header => do
    let bodyBytes ← compressBody c header msg.body
    let headerBytes ← c.marshal header
    .ok (headerBytes, bodyBytes)

/-- The buffer of a packet. -/
def assemble (headerBytes bodyBytes : Bytes) : Except Fault Bytes := do
  let headerLen := headerBytes.length % 2 ^ 32
  let bodyLen := bodyBytes.length % 2 ^ 32
  let total := (2 + 4 + 4 + headerLen + bodyLen) % 2 ^ 32
  let buf := replicate total 0
  let buf ← putAt buf 0 2 Magic
  let buf ← putAt buf 2 4 headerLen
  let buf ← putAt buf 6 4 bodyLen
  let buf ← copyAt buf 10 headerBytes
  copyAt buf ((10 + headerLen) % 2 ^ 32) bodyBytes

def encode (msg : Message) : Except Fault Bytes := do
  let (headerBytes, bodyBytes) ← parts c msg
  assemble headerBytes bodyBytes

/-! ## `Decode` -/

/-- `data[start:stop]`. -/
def slice (data : Bytes) (start stop : ℕ) : Except Fault Bytes :=
  if start ≤ stop ∧ stop ≤ data.length then .ok ((data.drop start).take (stop - start))
  else .error .panic

/-- A number of `width` bytes in the buffer. -/
def numberAt (data : Bytes) (start width : ℕ) : ℕ :=
  BigEndian.read ((data.drop start).take width)

/-- The body as it was given to `Encode`. -/
def decompressBody (header : Header) (bodyBytes : Bytes) : Except Fault Bytes :=
  if header.compression ≠ CompressionNone then c.decompress bodyBytes header.compression
  else .ok bodyBytes

def decode (data : Bytes) : Except Fault Message :=
  if data.length < 10 then .error (.text "data too short") else
  if numberAt data 0 2 ≠ Magic then .error (.text "invalid magic number") else
  let headerLen := numberAt data 2 4
  let bodyLen := numberAt data 6 4
  let totalLen := 10 + headerLen + bodyLen
  if totalLen > 2 ^ 63 - 1 then .error (.text "packet too large") else
  if data.length < totalLen then .error (.text "incomplete packet") else do
  let headerBytes ← slice data 10 ((10 + headerLen) % 2 ^ 32)
  let header ← c.unmarshal headerBytes
  let bodyBytes ← slice data ((10 + headerLen) % 2 ^ 32) ((10 + headerLen + bodyLen) % 2 ^ 32)
  let body ← decompressBody c header bodyBytes
  .ok ⟨some header, body⟩

end Protocol

/-! ## The buffer -/

namespace PacketBuffer

open Protocol

/-- The loop of `Read` that drops bytes until the magic number is in front. -/
def skip : Bytes → Bytes
  | a :: b :: rest => if BigEndian.read [a, b] ≠ Magic then skip (b :: rest) else a :: b :: rest
  | buf => buf

/-- `Read`: the packet, if there is one, and the buffer after it. -/
def read (buf : Bytes) : Option Bytes × Bytes :=
  let buf := skip buf
  if buf.length < 10 then (none, buf) else
  let headerLen := numberAt buf 2 4
  let bodyLen := numberAt buf 6 4
  let totalLen := 10 + headerLen + bodyLen
  if buf.length < totalLen then (none, buf) else
  (some (buf.take totalLen), buf.drop totalLen)

end PacketBuffer

namespace TCPConnection

open Protocol

variable (c : Codec)

/-- `TCPConnection.Read`: the next message, with the buffer and what is left to read from the
connection; `none` is the error of the connection after the last chunk. -/
def read (buf : Bytes) : List Bytes → Option (Except Fault Protocol.Message) × Bytes × List Bytes
  | [] =>
    match PacketBuffer.read buf with
    | (some packet, buf) => (some (decode c packet), buf, [])
    | (none, buf) => (none, buf, [])
  | tmp :: chunks =>
    match PacketBuffer.read buf with
    | (some packet, buf) => (some (decode c packet), buf, tmp :: chunks)
    | (none, buf) => read (buf ++ tmp) chunks

/-- The messages of calls of `Read`, up to the error of the connection. -/
def readAll (buf : Bytes) (chunks : List Bytes) : ℕ → List (Except Fault Protocol.Message)
  | 0 => []
  | n + 1 =>
    match read c buf chunks with
    | (none, _, _) => []
    | (some msg, buf, chunks) => msg :: readAll buf chunks n

end TCPConnection

/-! ## A packet and its message -/

namespace Protocol

variable {c : Codec} {headerBytes bodyBytes : Bytes}

/-- The packet of a header and a body. -/
def packet (headerBytes bodyBytes : Bytes) : Bytes :=
  BigEndian.put 2 Magic ++ (BigEndian.put 4 headerBytes.length ++
    (BigEndian.put 4 bodyBytes.length ++ (headerBytes ++ bodyBytes)))

@[simp] lemma length_packet (headerBytes bodyBytes : Bytes) :
    (packet headerBytes bodyBytes).length = 10 + headerBytes.length + bodyBytes.length := by
  simp [packet]
  omega

/-- What is copied fills the next zeros of the buffer. -/
lemma copyAt_zeros (pre src : Bytes) (k : ℕ) :
    copyAt (pre ++ replicate (src.length + k) 0) pre.length src =
      .ok (pre ++ src ++ replicate k 0) := by
  have htake : src.take (src.length + k) = src := take_of_length_le (Nat.le_add_right _ _)
  simp [copyAt, htake]

lemma putAt_zeros (pre : Bytes) (width n k : ℕ) :
    putAt (pre ++ replicate (width + k) 0) pre.length width n =
      .ok (pre ++ BigEndian.put width n ++ replicate k 0) := by
  have h := copyAt_zeros pre (BigEndian.put width n) k
  rw [BigEndian.length_put] at h
  rw [putAt, if_pos (by simp), h]

/-- **The buffer is the packet**, if its length is below `2 ^ 32`. -/
lemma assemble_eq (h : headerBytes.length + bodyBytes.length < 2 ^ 32 - 10) :
    assemble headerBytes bodyBytes = .ok (packet headerBytes bodyBytes) := by
  have hh : headerBytes.length % 2 ^ 32 = headerBytes.length := Nat.mod_eq_of_lt (by omega)
  have hb : bodyBytes.length % 2 ^ 32 = bodyBytes.length := Nat.mod_eq_of_lt (by omega)
  have htotal : (2 + 4 + 4 + headerBytes.length + bodyBytes.length) % 2 ^ 32 =
      2 + (4 + (4 + (headerBytes.length + (bodyBytes.length + 0)))) := by
    omega
  have hstart : (10 + headerBytes.length) % 2 ^ 32 = 10 + headerBytes.length :=
    Nat.mod_eq_of_lt (by omega)
  have h₁ := putAt_zeros [] 2 Magic (4 + (4 + (headerBytes.length + (bodyBytes.length + 0))))
  have h₂ := putAt_zeros (BigEndian.put 2 Magic) 4 headerBytes.length
    (4 + (headerBytes.length + (bodyBytes.length + 0)))
  have h₃ := putAt_zeros (BigEndian.put 2 Magic ++ BigEndian.put 4 headerBytes.length) 4
    bodyBytes.length (headerBytes.length + (bodyBytes.length + 0))
  have h₄ := copyAt_zeros (BigEndian.put 2 Magic ++ BigEndian.put 4 headerBytes.length ++
    BigEndian.put 4 bodyBytes.length) headerBytes (bodyBytes.length + 0)
  have h₅ := copyAt_zeros (BigEndian.put 2 Magic ++ BigEndian.put 4 headerBytes.length ++
    BigEndian.put 4 bodyBytes.length ++ headerBytes) bodyBytes 0
  simp only [nil_append, length_nil, length_append, BigEndian.length_put] at h₁ h₂ h₃ h₄ h₅
  simp only [assemble, hh, hb, htotal, hstart, h₁, h₂, h₃, h₄, h₅, ok_bind]
  simp [packet]

/-! ### Reading the numbers of a packet -/

lemma numberAt_append {data rest : Bytes} {start width : ℕ} (h : start + width ≤ data.length) :
    numberAt (data ++ rest) start width = numberAt data start width := by
  rw [numberAt, numberAt, drop_append_of_le_length (by omega),
    take_append_of_le_length (by simp; omega)]

lemma numberAt_put (pre rest : Bytes) {width n : ℕ} (h : n < 256 ^ width) :
    numberAt (pre ++ (BigEndian.put width n ++ rest)) pre.length width = n := by
  rw [numberAt, drop_left, take_left' (BigEndian.length_put width n), BigEndian.read_put h]

lemma numberAt_magic (headerBytes bodyBytes : Bytes) :
    numberAt (packet headerBytes bodyBytes) 0 2 = Magic :=
  numberAt_put [] _ (by decide)

lemma numberAt_headerLen (h : headerBytes.length + bodyBytes.length ≤ 2 ^ 32 - 10) :
    numberAt (packet headerBytes bodyBytes) 2 4 = headerBytes.length :=
  numberAt_put (BigEndian.put 2 Magic) _ (by omega)

lemma numberAt_bodyLen (h : headerBytes.length + bodyBytes.length ≤ 2 ^ 32 - 10) :
    numberAt (packet headerBytes bodyBytes) 6 4 = bodyBytes.length := by
  have hnumber := numberAt_put (BigEndian.put 2 Magic ++ BigEndian.put 4 headerBytes.length)
    (headerBytes ++ bodyBytes) (show bodyBytes.length < 256 ^ 4 by omega)
  exact hnumber

lemma slice_append (pre data rest : Bytes) :
    slice (pre ++ (data ++ rest)) pre.length (pre.length + data.length) = .ok data := by
  simp [slice]

/-- `Decode` reads the header and the body of a packet. -/
lemma decode_packet (h : headerBytes.length + bodyBytes.length < 2 ^ 32 - 10) :
    decode c (packet headerBytes bodyBytes) = (do
      let header ← c.unmarshal headerBytes
      let body ← decompressBody c header bodyBytes
      .ok ⟨some header, body⟩) := by
  have hh := numberAt_headerLen h.le
  have hb := numberAt_bodyLen h.le
  have hpacket : packet headerBytes bodyBytes = (BigEndian.put 2 Magic ++
      (BigEndian.put 4 headerBytes.length ++ BigEndian.put 4 bodyBytes.length)) ++
      (headerBytes ++ bodyBytes) := by
    simp [packet]
  have hheader : slice (packet headerBytes bodyBytes) 10 (10 + headerBytes.length) =
      .ok headerBytes := by
    rw [hpacket]
    exact slice_append _ headerBytes bodyBytes
  have hbody : slice (packet headerBytes bodyBytes) (10 + headerBytes.length)
      (10 + headerBytes.length + bodyBytes.length) = .ok bodyBytes := by
    have hslice := slice_append ((BigEndian.put 2 Magic ++
      (BigEndian.put 4 headerBytes.length ++ BigEndian.put 4 bodyBytes.length)) ++ headerBytes)
      bodyBytes []
    have hlen : ((BigEndian.put 2 Magic ++ (BigEndian.put 4 headerBytes.length ++
        BigEndian.put 4 bodyBytes.length)) ++ headerBytes).length = 10 + headerBytes.length := by
      simp
      omega
    rw [hlen, append_nil] at hslice
    exact hslice
  have hmod : (10 + headerBytes.length) % 2 ^ 32 = 10 + headerBytes.length :=
    Nat.mod_eq_of_lt (by omega)
  have hmod' : (10 + headerBytes.length + bodyBytes.length) % 2 ^ 32 =
      10 + headerBytes.length + bodyBytes.length := Nat.mod_eq_of_lt (by omega)
  unfold decode
  rw [if_neg (by simp; omega), if_neg (by simp [numberAt_magic])]
  simp only [hh, hb, hmod, hmod', hheader, hbody, ok_bind]
  rw [if_neg (by omega), if_neg (by simp)]

/-- The header and the body, as they are sent, are below `2 ^ 32 - 10` bytes. -/
def Fits (c : Codec) (msg : Message) : Prop :=
  ∀ headerBytes bodyBytes, parts c msg = .ok (headerBytes, bodyBytes) →
    headerBytes.length + bodyBytes.length < 2 ^ 32 - 10

/-- The body is decompressed exactly if it was compressed. -/
lemma decompressBody_eq (hc : c.RoundTrips) {header : Header} {body : Bytes}
    (h : compressBody c header body = .ok bodyBytes) :
    decompressBody c header bodyBytes = .ok body := by
  unfold compressBody at h
  unfold decompressBody
  split_ifs at h ⊢
  · exact hc.decompress_compress _ _ _ h
  · rw [h]

/-- `Encode` makes a packet of the parts. -/
lemma encode_of_parts {msg : Message} (hparts : parts c msg = .ok (headerBytes, bodyBytes))
    (h : headerBytes.length + bodyBytes.length < 2 ^ 32 - 10) :
    encode c msg = .ok (packet headerBytes bodyBytes) := by
  rw [encode, hparts, ok_bind]
  exact assemble_eq h

/-- **`Encode` makes a packet**, and `Decode` gives back the message. -/
lemma encode_eq (hc : c.RoundTrips) {msg : Message} (hfits : Fits c msg) {data : Bytes}
    (h : encode c msg = .ok data) :
    (∃ headerBytes bodyBytes, data = packet headerBytes bodyBytes ∧
      headerBytes.length + bodyBytes.length < 2 ^ 32 - 10) ∧ decode c data = .ok msg := by
  obtain ⟨⟨headerBytes, bodyBytes⟩, hparts, -⟩ := bind_eq_ok.1 h
  have hlt := hfits headerBytes bodyBytes hparts
  rw [encode_of_parts hparts hlt] at h
  cases h
  refine ⟨⟨headerBytes, bodyBytes, rfl, hlt⟩, ?_⟩
  rw [decode_packet hlt]
  obtain ⟨header, body⟩ := msg
  cases header with
  | none => cases hparts
  | some header =>
    obtain ⟨bytes, hbody, hparts⟩ := bind_eq_ok.1 hparts
    obtain ⟨bytes', hmarshal, hpair⟩ := bind_eq_ok.1 hparts
    cases hpair
    rw [hc.unmarshal_marshal _ _ hmarshal, ok_bind, decompressBody_eq hc hbody, ok_bind]

end Protocol

/-! ## Packets out of the buffer -/

namespace PacketBuffer

open Protocol Framing

variable {headerBytes bodyBytes p : Bytes}

lemma read_nil : read [] = (none, []) := rfl

/-- A buffer with the magic number in front, or with one byte at most, is left alone. -/
lemma skip_eq (h : 2 ≤ p.length → numberAt p 0 2 = Magic) : skip p = p := by
  match p with
  | [] => rfl
  | [a] => rfl
  | a :: b :: rest =>
    have hmagic : BigEndian.read [a, b] = Magic := h (by simp)
    rw [skip, if_neg (by simp [hmagic])]

/-- **`Read` takes a packet** once it is whole, and leaves a part of it alone. -/
lemma isFrame_packet (h : headerBytes.length + bodyBytes.length < 2 ^ 32 - 10) :
    IsFrame read (packet headerBytes bodyBytes) := by
  have hh := numberAt_headerLen h.le
  have hb := numberAt_bodyLen h.le
  refine ⟨fun rest => ?_, fun p hp hne => ?_⟩
  · have hnumber : ∀ start width, start + width ≤ 10 →
        numberAt (packet headerBytes bodyBytes ++ rest) start width =
          numberAt (packet headerBytes bodyBytes) start width := fun start width hle =>
      numberAt_append (by simp; omega)
    have hskip : skip (packet headerBytes bodyBytes ++ rest) =
        packet headerBytes bodyBytes ++ rest :=
      skip_eq fun _ => by rw [hnumber 0 2 (by omega), numberAt_magic]
    simp only [read, hskip, hnumber 2 4 (by omega), hnumber 6 4 (by omega), hh, hb]
    rw [if_neg (by simp; omega)]
    simp [← length_packet]
  · obtain ⟨more, hmore⟩ := hp
    have hpos : 0 < more.length := by
      refine length_pos_of_ne_nil ?_
      rintro rfl
      exact hne (by simpa using hmore)
    have hlen := congrArg length hmore
    rw [length_append, length_packet] at hlen
    have hnumber : ∀ start width, start + width ≤ p.length →
        numberAt p start width = numberAt (packet headerBytes bodyBytes) start width := by
      intro start width hle
      rw [← hmore, numberAt_append hle]
    have hskip : skip p = p := skip_eq fun hle => by rw [hnumber 0 2 (by omega), numberAt_magic]
    simp only [read, hskip]
    by_cases hshort : p.length < 10
    · rw [if_pos hshort]
    · rw [if_neg hshort, hnumber 2 4 (by omega), hnumber 6 4 (by omega), if_pos (by omega)]

lemma frames_of_encode {c : Codec} (hc : c.RoundTrips) {msgs : List Protocol.Message}
    (hfits : ∀ msg ∈ msgs, Fits c msg) {stream : List Bytes}
    (hstream : msgs.mapM (encode c) = .ok stream) :
    (∀ data ∈ stream, IsFrame read data) ∧ stream.mapM (decode c) = .ok msgs := by
  rw [mapM_eq_ok] at hstream ⊢
  induction hstream with
  | nil => exact ⟨nofun, .nil⟩
  | cons hmsg _ ih =>
    obtain ⟨hframes, hdecode⟩ := ih (forall_mem_cons.1 hfits).2
    obtain ⟨⟨headerBytes, bodyBytes, rfl, hlt⟩, hself⟩ :=
      encode_eq hc (hfits _ mem_cons_self) hmsg
    exact ⟨forall_mem_cons.2 ⟨isFrame_packet hlt, hframes⟩, .cons hself hdecode⟩

/-- The packets that the calls of `Read` return, in any order of calls of `Write` and `Read` on a
new buffer. -/
def packets (ops : List (Op UInt8)) : List Bytes :=
  (feed read [] ops).1

/-- **Framing does not depend on the chunks.** The packets of a list of messages are written in any
pieces, with calls of `Read` in between. These return the first packets, in order, whatever was
written so far; once all is written, further calls return the other packets and then none; and
`Decode` of the packets gives the messages. -/
theorem read_packets (c : Codec) (hc : c.RoundTrips) (msgs : List Protocol.Message)
    (hfits : ∀ msg ∈ msgs, Fits c msg) (stream : List Bytes)
    (hstream : msgs.mapM (encode c) = .ok stream) :
    (∀ ops later, written ops ++ later = stream.flatten → packets ops <+: stream) ∧
      (∀ ops n, written ops = stream.flatten → stream.length ≤ n →
        packets (ops ++ replicate n .read) = stream) ∧
      stream.mapM (decode c) = .ok msgs := by
  obtain ⟨hframes, hdecode⟩ := frames_of_encode hc hfits hstream
  refine ⟨fun ops later hops => ?_, fun ops n hops hn => feed_all read_nil hframes hops hn, hdecode⟩
  have hbuf : [] ++ (written ops ++ later) = stream.flatten := hops
  obtain ⟨k, hk, -⟩ := feed_frames read_nil hframes hbuf
  rw [packets, hk]
  exact List.take_prefix k stream

/-- A request, with the JSON text of its header. -/
def request : Rpc.Message :=
  { requestID := 1, serviceName := "Echo", methodName := "Say", codecType := 1, body := [0x12] }

def requestText : Bytes :=
  ("\x7b\"RequestID\":1,\"ServiceName\":\"Echo\",\"MethodName\":\"Say\",\"Error\":\"\"," ++
    "\"CodecType\":1,\"Compression\":0\x7d").toUTF8.data.toList

/-- The end of a stream, with the JSON text of its header. -/
def ending : Rpc.Message :=
  { requestID := 2, streamFlag := .StreamEnd }

def endingText : Bytes :=
  ("\x7b\"RequestID\":2,\"ServiceName\":\"\",\"MethodName\":\"\",\"Error\":\"\"," ++
    "\"CodecType\":0,\"Compression\":0,\"StreamFlag\":2\x7d").toUTF8.data.toList

/-- The codec of these two headers, without compressors. -/
def jsonCodec : Codec where
  marshal header :=
    if header = request.toHeader then .ok requestText
    else if header = ending.toHeader then .ok endingText
    else .error (.text "another header")
  unmarshal bytes :=
    if bytes = requestText then .ok request.toHeader
    else if bytes = endingText then .ok ending.toHeader
    else .error (.text "another text")
  compress _ _ := .error (.text "compressor not found")
  decompress _ _ := .error (.text "compressor not found")

lemma jsonCodec_roundTrips : jsonCodec.RoundTrips := by
  refine ⟨fun header bytes h => ?_, fun _ _ _ h => nomatch h⟩
  dsimp only [jsonCodec] at h
  split_ifs at h with hrequest hending
  · cases h
    rw [hrequest]
    rfl
  · cases h
    rw [hending]
    decide +kernel

/-- What is sent for the two messages. -/
def requestPacket : Bytes := packet requestText [0x12]

def endingPacket : Bytes := packet endingText []

lemma encode_jsonCodec :
    [.of request, .of ending].mapM (encode jsonCodec) = .ok [requestPacket, endingPacket] := by
  decide +kernel

lemma fits_jsonCodec : ∀ msg ∈ [.of request, .of ending], Fits jsonCodec msg := by
  intro msg hmsg headerBytes bodyBytes hparts
  rcases mem_pair.1 hmsg with rfl | rfl
  all_goals
    cases hparts
    decide +kernel

/-- Two packets that are cut inside the first magic number and inside the first header, so that the
last piece has the end of one packet and the whole of the other. -/
theorem read_packets_cut :
    packets ([.write (requestPacket.take 1), .read, .write ((requestPacket.drop 1).take 20), .read,
        .write (requestPacket.drop 21 ++ endingPacket)] ++ replicate 2 .read) =
        [requestPacket, endingPacket] ∧
      [requestPacket, endingPacket].mapM (decode jsonCodec) = .ok [.of request, .of ending] := by
  have h := read_packets jsonCodec jsonCodec_roundTrips _ fits_jsonCodec _ encode_jsonCodec
  exact ⟨h.2.1 _ 2 (by decide +kernel) (by decide), h.2.2⟩

end PacketBuffer

/-! ## Messages out of a connection -/

namespace TCPConnection

open Protocol Framing PacketBuffer

variable {c : Codec} {stream : List Bytes} {buf : Bytes} {chunks : List Bytes}

/-- Without a further packet, a call of `Read` returns the error of the connection. -/
lemma read_end (hbuf : buf ++ chunks.flatten = []) : (read c buf chunks).1 = none := by
  induction chunks generalizing buf with
  | nil =>
    obtain ⟨rfl, -⟩ := append_eq_nil_iff.1 hbuf
    simp [read, PacketBuffer.read_nil]
  | cons tmp chunks ih =>
    obtain ⟨rfl, htmp⟩ := append_eq_nil_iff.1 hbuf
    simp only [read, PacketBuffer.read_nil]
    apply ih
    simpa using htmp

/-- A call of `Read` returns the message of the next packet. -/
lemma read_next {data : Bytes} (hstream : ∀ f ∈ data :: stream, IsFrame PacketBuffer.read f)
    (hbuf : buf ++ chunks.flatten = (data :: stream).flatten) :
    ∃ buf' chunks', read c buf chunks = (some (decode c data), buf', chunks') ∧
      buf' ++ chunks'.flatten = stream.flatten := by
  induction chunks generalizing buf with
  | nil =>
    have hwhole := (hstream data mem_cons_self).whole stream.flatten
    simp only [flatten_nil, append_nil, flatten_cons] at hbuf
    rw [← hbuf] at hwhole
    exact ⟨stream.flatten, [], by simp [read, hwhole], by simp⟩
  | cons tmp chunks ih =>
    rcases read_cases PacketBuffer.read_nil hstream hbuf with
      hnone | ⟨f, rest, buf', heq, hf, hrest⟩
    · have hstep : read c buf (tmp :: chunks) = read c (buf ++ tmp) chunks := by
        simp [read, hnone]
      rw [hstep]
      apply ih
      simpa using hbuf
    · cases heq
      exact ⟨buf', tmp :: chunks, by simp [read, hf], hrest⟩

lemma readAll_eq {msgs : List Protocol.Message}
    (hstream : ∀ f ∈ stream, IsFrame PacketBuffer.read f)
    (hdecode : List.Forall₂ (fun data msg => decode c data = .ok msg) stream msgs)
    (hbuf : buf ++ chunks.flatten = stream.flatten) {n : ℕ} (hn : msgs.length < n) :
    readAll c buf chunks n = msgs.map .ok := by
  induction hdecode generalizing buf chunks n with
  | nil =>
    cases n with
    | zero => simp at hn
    | succ n =>
      have hend : (read c buf chunks).1 = none := read_end hbuf
      rw [readAll]
      split
      · rfl
      · simp_all
  | cons hmsg _ ih =>
    cases n with
    | zero => simp at hn
    | succ n =>
      obtain ⟨buf', chunks', hread, hrest⟩ := read_next hstream hbuf
      rw [readAll, hread, hmsg, map_cons]
      rw [length_cons] at hn
      simp only [cons.injEq, true_and]
      exact ih (forall_mem_cons.1 hstream).2 hrest (by omega)

/-- **A connection returns the messages** that were sent, one after another, and then its error. -/
theorem read_messages (hc : c.RoundTrips) {msgs : List Protocol.Message}
    (hfits : ∀ msg ∈ msgs, Fits c msg) (hstream : msgs.mapM (encode c) = .ok stream)
    (hchunks : chunks.flatten = stream.flatten) {n : ℕ} (hn : msgs.length < n) :
    readAll c [] chunks n = msgs.map .ok := by
  obtain ⟨hframes, hdecode⟩ := PacketBuffer.frames_of_encode hc hfits hstream
  exact readAll_eq hframes (mapM_eq_ok.1 hdecode) hchunks hn

/-- **A client or a server can send its messages**: if they can be marshalled and fit into packets,
`Encode` makes a stream of them, and the other side reads them however the stream is cut. -/
theorem exists_stream (hc : c.RoundTrips) {msgs : List Rpc.Message}
    (hparts : ∀ msg ∈ msgs, ∃ headerBytes bodyBytes,
      parts c (.of msg) = .ok (headerBytes, bodyBytes) ∧
        headerBytes.length + bodyBytes.length < 2 ^ 32 - 10) :
    ∃ stream, (msgs.map .of).mapM (encode c) = .ok stream ∧
      ∀ chunks n, chunks.flatten = stream.flatten → msgs.length < n →
        readAll c [] chunks n = msgs.map fun msg => .ok (.of msg) := by
  have hfits : ∀ msg ∈ msgs.map .of, Fits c msg := by
    rw [forall_mem_map]
    intro msg hmsg headerBytes bodyBytes h
    obtain ⟨headerBytes', bodyBytes', h', hlt⟩ := hparts msg hmsg
    cases h.symm.trans h'
    exact hlt
  obtain ⟨stream, hstream⟩ : ∃ stream, (msgs.map .of).mapM (encode c) = .ok stream := by
    refine exists_mapM_eq_ok (forall_mem_map.2 fun msg hmsg => ?_)
    obtain ⟨headerBytes, bodyBytes, h, hlt⟩ := hparts msg hmsg
    exact ⟨_, encode_of_parts h hlt⟩
  refine ⟨stream, hstream, fun chunks n hchunks hn => ?_⟩
  rw [read_messages hc hfits hstream hchunks (by rwa [length_map]), map_map]
  rfl

/-- Two messages in three pieces, as above. -/
theorem read_messages_cut :
    readAll jsonCodec [] [requestPacket.take 1, (requestPacket.drop 1).take 20,
        requestPacket.drop 21 ++ endingPacket] 3 = [.ok (.of request), .ok (.of ending)] :=
  read_messages jsonCodec_roundTrips fits_jsonCodec encode_jsonCodec (by decide +kernel) (by decide)

end TCPConnection

/-! ## Slices out of range -/

namespace Protocol

open PacketBuffer

variable {c : Codec} {data : Bytes}

/-- A buffer that passes the checks of `Decode`. -/
def Framed (data : Bytes) : Prop :=
  10 ≤ data.length ∧ numberAt data 0 2 = Magic ∧
    10 + numberAt data 2 4 + numberAt data 6 4 ≤ data.length
  deriving Decidable

/-- The header ends below `2 ^ 32`, and so does the body if the header can be read. -/
def Addressable (c : Codec) (data : Bytes) : Prop :=
  10 + numberAt data 2 4 < 2 ^ 32 ∧
    ∀ header, c.unmarshal ((data.drop 10).take (numberAt data 2 4)) = .ok header →
      10 + numberAt data 2 4 + numberAt data 6 4 < 2 ^ 32

lemma numberAt_lt (data : Bytes) (start : ℕ) : numberAt data start 4 < 2 ^ 32 :=
  calc numberAt data start 4 < 256 ^ ((data.drop start).take 4).length := BigEndian.read_lt _
    _ ≤ 256 ^ 4 := Nat.pow_le_pow_right (by decide) (length_take_le 4 _)

lemma decode_framed (h : Framed data) :
    decode c data = (do
      let headerBytes ← slice data 10 ((10 + numberAt data 2 4) % 2 ^ 32)
      let header ← c.unmarshal headerBytes
      let bodyBytes ← slice data ((10 + numberAt data 2 4) % 2 ^ 32)
        ((10 + numberAt data 2 4 + numberAt data 6 4) % 2 ^ 32)
      let body ← decompressBody c header bodyBytes
      .ok ⟨some header, body⟩) := by
  have hheader := numberAt_lt data 2
  have hbody := numberAt_lt data 6
  obtain ⟨hlen, hmagic, htotal⟩ := h
  simp only [decode]
  rw [if_neg (by omega), if_neg (by simpa using hmagic), if_neg (by omega), if_neg (by omega)]

/-- The end of the header wraps around to a place in front of its start. -/
lemma decode_wrapped (h : Framed data) (hwrap : 2 ^ 32 ≤ 10 + numberAt data 2 4) :
    decode c data = .error .panic := by
  have hheader := numberAt_lt data 2
  rw [decode_framed h, slice, if_neg (by omega)]
  rfl

/-- **When `Decode` stays in range.** It panics on a buffer that passes its checks if the header
ends at `2 ^ 32` or later, or if the header can be read and the body ends there, and never else.

**Proof sketch.** Both ends are below `2 ^ 33`, so an end that wraps around lies in front of the
start of its slice; one that does not is at most the length that was checked. -/
theorem decode_ne_panic_iff (hunmarshal : ∀ bytes, c.unmarshal bytes ≠ .error .panic)
    (hdecompress : ∀ bytes type, c.decompress bytes type ≠ .error .panic) :
    decode c data ≠ .error .panic ↔ (Framed data → Addressable c data) := by
  by_cases hframed : Framed data
  · by_cases hwrap : 2 ^ 32 ≤ 10 + numberAt data 2 4
    · simp only [decode_wrapped hframed hwrap, ne_eq, not_true, hframed, true_imp_iff, false_iff]
      exact fun h => absurd h.1 (by omega)
    have hbody := numberAt_lt data 6
    have htotal := hframed.2.2
    have hslice : slice data 10 (10 + numberAt data 2 4) =
        .ok ((data.drop 10).take (numberAt data 2 4)) := by
      rw [slice, if_pos (by omega), Nat.add_sub_cancel_left]
    rw [decode_framed hframed, Nat.mod_eq_of_lt (by omega : 10 + numberAt data 2 4 < 2 ^ 32),
      hslice, ok_bind]
    simp only [hframed, true_imp_iff, Addressable, show 10 + numberAt data 2 4 < 2 ^ 32 by omega,
      true_and]
    cases hu : c.unmarshal ((data.drop 10).take (numberAt data 2 4)) with
    | error fault =>
      refine iff_of_true (fun h => ?_) nofun
      obtain rfl : fault = .panic := Except.error.inj h
      exact hunmarshal _ hu
    | ok header =>
      rw [slice]
      split_ifs with hrange
      · have hend : 10 + numberAt data 2 4 + numberAt data 6 4 < 2 ^ 32 := by omega
        simp only [hend, implies_true, iff_true, ok_bind, decompressBody]
        split_ifs
        · cases hd : c.decompress _ header.compression with
          | error fault =>
            rintro ⟨⟩
            exact hdecompress _ _ hd
          | ok body => nofun
        · nofun
      · refine iff_of_false (fun h => h rfl) fun h => ?_
        have hend := h header rfl
        omega
  · simp only [hframed, decode]
    split_ifs with hlen hmagic htotal hshort <;> try simp
    exact absurd ⟨not_lt.1 hlen, not_not.1 hmagic, not_lt.1 hshort⟩ hframed

/-- A buffer of `2 ^ 32` bytes whose header fills it. -/
theorem decode_panics_at_4GiB :
    decode jsonCodec (packet (replicate (2 ^ 32 - 10) 0) []) =
      .error .panic := by
  have hlen : (replicate (2 ^ 32 - 10) (0 : UInt8)).length = 2 ^ 32 - 10 :=
    length_replicate
  generalize replicate (2 ^ 32 - 10) (0 : UInt8) = zeros at hlen
  have hle : zeros.length + ([] : Bytes).length ≤ 2 ^ 32 - 10 := by
    rw [length_nil]
    omega
  have hheader := numberAt_headerLen hle
  have hbody := numberAt_bodyLen hle
  refine decode_wrapped ⟨?_, numberAt_magic _ _, ?_⟩ ?_
  · rw [length_packet]
    omega
  · rw [length_packet, hheader, hbody]
  · omega

/-- The packet of a request. -/
theorem decode_ne_panic_short :
    Framed requestPacket ∧ decode jsonCodec requestPacket ≠ .error .panic := by
  have hsmall : Addressable jsonCodec requestPacket :=
    ⟨by decide +kernel, fun _ _ => by decide +kernel⟩
  refine ⟨by decide +kernel,
    (decode_ne_panic_iff (fun bytes => ?_) (by simp [jsonCodec])).2 fun _ => hsmall⟩
  dsimp only [jsonCodec]
  split_ifs <;> simp

end Protocol

end Yukino.Rpc
