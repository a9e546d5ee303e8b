import Yukino.Http.WebSocket

set_option autoImplicit false

/-!
# Frames of a WebSocket client

The frames that RFC 6455 lets a client send, with their bytes, and what `readFrame` makes of them.

## Main definitions

* `WebSocket.Frame` — a frame of a client.
* `WebSocket.Frame.encode` — its bytes, masked, with the shortest form of the length.

## Main results

* `WebSocket.readFrame_encode` — `readFrame` returns the frame and leaves what follows,
  if the payload is within the limit.
-/

namespace Yukino.Http.WebSocket

open List

inductive Opcode
  | continuation
  | text
  | binary
  | close
  | ping
  | pong
  deriving DecidableEq

/-- The four bits that stand for the opcode. -/
def Opcode.code : Opcode → ℕ
  | .continuation => continuationFrame
  | .text => TextMessage
  | .binary => BinaryMessage
  | .close => CloseMessage
  | .ping => PingMessage
  | .pong => PongMessage

def Opcode.control : Opcode → Bool
  | .continuation | .text | .binary => false
  | .close | .ping | .pong => true

/-- A frame of a client. -/
structure Frame where
  opcode : Opcode
  fin : Bool
  maskKey : Bytes
  payload : Bytes
  maskKey_length : maskKey.length = 4
  payload_length : payload.length < 2 ^ 63
  /-- A control frame is not fragmented, and it is short. -/
  control_short : opcode.control = true → fin = true ∧ payload.length ≤ 125

/-- The seven bits of the header for a length. -/
def lengthCode (n : ℕ) : ℕ :=
  if n ≤ 125 then n else if n ≤ 65535 then 126 else 127

/-- The bytes of the length that follow the header. -/
def extendedLength (n : ℕ) : Bytes :=
  if n ≤ 125 then [] else if n ≤ 65535 then BigEndian.put 2 n else BigEndian.put 8 n

namespace Frame

def firstByte (opcode : Opcode) (fin : Bool) : UInt8 :=
  (if fin then 0x80 else 0) ||| UInt8.ofNat opcode.code

def secondByte (length : ℕ) : UInt8 :=
  0x80 ||| UInt8.ofNat (lengthCode length)

def encode (f : Frame) : Bytes :=
  firstByte f.opcode f.fin :: secondByte f.payload.length ::
    (extendedLength f.payload.length ++ (f.maskKey ++ unmask f.maskKey f.payload))

end Frame

/-- The bytes of frames that follow each other. -/
def encodeAll (frames : List Frame) : Bytes :=
  frames.flatMap Frame.encode

/-! ## The header -/

lemma firstByte_fin (opcode : Opcode) (fin : Bool) :
    decide (Frame.firstByte opcode fin &&& 0x80 ≠ 0) = fin := by
  cases opcode <;> cases fin <;> rfl

lemma firstByte_opcode (opcode : Opcode) (fin : Bool) :
    (Frame.firstByte opcode fin &&& 0x0F).toNat = opcode.code := by
  cases opcode <;> cases fin <;> rfl

lemma firstByte_reserved (opcode : Opcode) (fin : Bool) :
    Frame.firstByte opcode fin &&& 0x70 = 0 := by
  cases opcode <;> cases fin <;> rfl

lemma lengthCode_lt (n : ℕ) : lengthCode n < 128 := by
  unfold lengthCode
  split_ifs <;> omega

/-- The second byte, for each of its seven bits. -/
lemma secondByte_code : ∀ c : Fin 128,
    ((0x80 ||| UInt8.ofNat c) &&& 0x7F).toNat = c ∧ (0x80 ||| UInt8.ofNat c) &&& 0x80 ≠ 0 := by
  decide +kernel

lemma secondByte_length (n : ℕ) : (Frame.secondByte n &&& 0x7F).toNat = lengthCode n :=
  (secondByte_code ⟨lengthCode n, lengthCode_lt n⟩).1

lemma secondByte_masked (n : ℕ) : Frame.secondByte n &&& 0x80 ≠ 0 :=
  (secondByte_code ⟨lengthCode n, lengthCode_lt n⟩).2

lemma lengthCode_le_iff (n : ℕ) : lengthCode n ≤ 125 ↔ n ≤ 125 := by
  unfold lengthCode
  split_ifs <;> omega

/-- The switch over the opcode accepts the frames of a client. -/
lemma validOpcode_frame (f : Frame) :
    validOpcode f.opcode.code f.fin (lengthCode f.payload.length) = true := by
  have hshort := f.control_short
  rw [← lengthCode_le_iff] at hshort
  cases hop : f.opcode with
  | continuation | text | binary => rfl
  | close | ping | pong =>
    rw [hop] at hshort
    obtain ⟨hfin, hlen⟩ := hshort rfl
    rw [hfin]
    exact decide_eq_true hlen

/-! ## The payload -/

lemma readFull_append {n : ℕ} {bytes : Bytes} (h : bytes.length = n) (rest : Bytes) :
    readFull n (bytes ++ rest) = .ok (bytes, rest) := by
  unfold readFull
  rw [if_neg (by rw [length_append]; omega), take_left' h, drop_left' h]

lemma readLength_extendedLength {n : ℕ} (h : n < 2 ^ 63) (rest : Bytes) :
    readLength (lengthCode n) (extendedLength n ++ rest) = .ok (n, rest) := by
  unfold lengthCode extendedLength readLength
  by_cases h125 : n ≤ 125
  · rw [if_pos h125, if_pos h125, if_neg (by omega), if_neg (by omega), nil_append]
  · rw [if_neg h125, if_neg h125]
    by_cases h65535 : n ≤ 65535
    · rw [if_pos h65535, if_pos h65535,
        readFull_append (BigEndian.length_put 2 n) rest, Outcome.ok_bind]
      dsimp only
      rw [BigEndian.read_put (by omega)]
      rfl
    · rw [if_neg h65535, if_neg h65535,
        readFull_append (BigEndian.length_put 8 n) rest, Outcome.ok_bind]
      dsimp only
      rw [BigEndian.read_put (by omega)]
      rfl

lemma length_unmask (maskKey payload : Bytes) : (unmask maskKey payload).length = payload.length :=
  length_mapIdx

/-- Masking twice with one key changes nothing. -/
lemma unmask_unmask (maskKey payload : Bytes) :
    unmask maskKey (unmask maskKey payload) = payload := by
  apply ext_getElem?
  intro i
  unfold unmask
  rw [getElem?_mapIdx, getElem?_mapIdx]
  cases payload[i]? with
  | none => rfl
  | some b =>
    dsimp only [Option.map_some]
    rw [UInt8.xor_assoc, UInt8.xor_self, UInt8.xor_zero]

/-- **A frame is read as it was sent**, and the bytes behind it are left. A frame with a payload
over the limit is refused. -/
theorem readFrame_encode (limit : ℕ) (f : Frame) (rest : Bytes) :
    readFrame limit (f.encode ++ rest) =
      if limit < f.payload.length then .error .ErrWSInvalidFrame
      else .ok (⟨f.opcode.code, f.fin, f.payload⟩, rest) := by
  have hmask := unmask_unmask f.maskKey f.payload
  unfold Frame.encode
  rw [cons_append, cons_append, append_assoc, append_assoc]
  unfold readFrame
  dsimp only
  rw [firstByte_fin, firstByte_opcode, secondByte_length, firstByte_reserved, validOpcode_frame,
    decide_eq_true (secondByte_masked _)]
  unfold readPayload
  rw [readLength_extendedLength f.payload_length, Outcome.ok_bind]
  dsimp only
  rw [if_neg (fun h => h rfl), if_neg (by decide), if_neg (by decide)]
  split_ifs with hlimit
  · rfl
  · rw [readFull_append f.maskKey_length, Outcome.ok_bind]
    rw [readFull_append (length_unmask _ _), Outcome.ok_bind]
    rw [hmask]
    rfl

end Yukino.Http.WebSocket
