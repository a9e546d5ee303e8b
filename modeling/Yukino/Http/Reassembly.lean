import Mathlib.Data.List.Chain
import Yukino.Http.Frames

set_option autoImplicit false

/-!
# Reassembly of WebSocket messages

What `ReadMessage` is for: a client may split a message into fragments, and send control frames
between them; the messages come out whole and in order, and every ping is answered. `legal` and
`expected` say this for the frames of a client.

The code forgets the fragments when it meets a control frame, since `readMessage` returns it with
the message so far in its local variables. The next fragment is then a continuation of nothing.

## Main definitions

* `WebSocket.legal` — the frames are in an order that RFC 6455 allows, and no message
  is over the limit.
* `WebSocket.expected` — the messages and the answers to pings.

## Main results

* `WebSocket.reassembles_iff` — the messages come out as expected if and only if no
  fragment comes directly behind a ping or pong, and no ping or pong is over the limit.

## Design

The frames are those before the first close frame; what follows is nothing, or bytes that begin with
a close frame. The proof follows the state of `readMessage` in `resume`, which is in step with the
message of the client, or empty.
-/

namespace Yukino.Http.WebSocket

open List

/-! ## What a connection should deliver -/

inductive DataType
  | text
  | binary
  deriving DecidableEq

def DataType.code : DataType → ℕ
  | .text => TextMessage
  | .binary => BinaryMessage

/-- The message of which the client has sent some fragments: its type and its bytes. -/
abbrev Fragments := Option (DataType × Bytes)

/-- The fragments after a frame of data, with the bytes of the message up to it. -/
def extend (type : DataType) (data : Bytes) (fin : Bool) : Fragments :=
  if fin then none else some (type, data)

/-- The message that a frame of data completes, if it does. -/
def complete (type : DataType) (data : Bytes) (fin : Bool) : List Event :=
  if fin then [.message type.code data] else []

/-- The frame may be sent after the fragments. -/
def allowed (limit : ℕ) (p : Fragments) (f : Frame) : Bool :=
  match f.opcode, p with
  | .continuation, some (_, data) => data.length + f.payload.length ≤ limit
  | .continuation, none => false
  | .text, none | .binary, none => f.payload.length ≤ limit
  | .text, some _ | .binary, some _ => false
  | .close, _ | .ping, _ | .pong, _ => true

/-- The fragments after the frame. -/
def next (p : Fragments) (f : Frame) : Fragments :=
  match f.opcode, p with
  | .continuation, some (type, data) => extend type (data ++ f.payload) f.fin
  | .continuation, none => none
  | .text, _ => extend .text f.payload f.fin
  | .binary, _ => extend .binary f.payload f.fin
  | .close, p | .ping, p | .pong, p => p

/-- What the frame should lead to. -/
def emits (p : Fragments) (f : Frame) : List Event :=
  match f.opcode, p with
  | .continuation, some (type, data) => complete type (data ++ f.payload) f.fin
  | .continuation, none => []
  | .text, _ => complete .text f.payload f.fin
  | .binary, _ => complete .binary f.payload f.fin
  | .ping, _ => [.wrote (writeFrame PongMessage f.payload)]
  | .close, _ | .pong, _ => []

def legal (limit : ℕ) (p : Fragments) : List Frame → Bool
  | [] => true
  | f :: fs => allowed limit p f && legal limit (next p f) fs

def expected (p : Fragments) : List Frame → List Event
  | [] => []
  | f :: fs => emits p f ++ expected (next p f) fs

/-- Nothing follows, or a close frame does. -/
def Closing (tail : Bytes) : Prop :=
  tail = [] ∨ ∃ (c : Frame) (rest : Bytes), c.opcode = .close ∧ tail = c.encode ++ rest

/-- Events that come before a transcript. -/
def after (events : List Event) (r : List Event × Err) : List Event × Err :=
  (events ++ r.1, r.2)

/-- **The messages of the client come out**: up to the first close frame `ReadMessage` returns the
messages, answers the pings and reports no error. -/
def Reassembles (limit : ℕ) (frames : List Frame) : Prop :=
  ∀ tail, Closing tail →
    transcript limit (encodeAll frames ++ tail) =
      after (expected none frames) (transcript limit tail)

/-! ## The state of `readMessage` -/

/-- `msgType` of `readMessage`. -/
def msgType : Fragments → ℕ
  | none => 0
  | some (type, _) => type.code

/-- `buf` of `readMessage`. -/
def buf : Fragments → Bytes
  | none => []
  | some (_, data) => data

/-- The transcript that begins with what `readMessage` returns. -/
def route (limit : ℕ) : Except Err ((ℕ × Bytes) × Bytes) → List Event × Err
  | .error e => ([], e)
  | .ok ((opcode, payload), rest) =>
    if opcode = PingMessage then
      after [.wrote (writeFrame PongMessage payload)] (transcript limit rest)
    else if opcode = PongMessage then transcript limit rest
    else if opcode = CloseMessage then
      ([.wrote (writeCloseFrame (closeCode payload))], .ErrWSClosed)
    else if opcode = TextMessage ∨ opcode = BinaryMessage then
      after [.message opcode payload] (transcript limit rest)
    else ([], .ErrWSInvalidFrame)

/-- The transcript that begins inside `readMessage`, after the fragments. -/
def resume (limit : ℕ) (q : Fragments) (stream : Bytes) : List Event × Err :=
  route limit (readMessage limit (msgType q) (buf q) stream)

/-- The transcript that begins with a call of `ReadMessage`. -/
def followed (limit : ℕ) : List Bytes × Except Err ((ℕ × Bytes) × Bytes) → List Event × Err
  | (written, .error e) => (written.map .wrote, e)
  | (written, .ok ((messageType, data), rest)) =>
    after (written.map .wrote ++ [.message messageType data]) (transcript limit rest)

lemma after_after (events events' : List Event) (r : List Event × Err) :
    after events (after events' r) = after (events ++ events') r := by
  unfold after
  rw [append_assoc]

lemma after_inj {events : List Event} {r r' : List Event × Err} :
    after events r = after events r' ↔ r = r' := by
  unfold after
  rw [Prod.mk.injEq, append_cancel_left_eq, Prod.ext_iff]

lemma followed_cons (limit : ℕ) (b : Bytes) (written : List Bytes)
    (result : Except Err ((ℕ × Bytes) × Bytes)) :
    followed limit (b :: written, result) =
      after [.wrote b] (followed limit (written, result)) := by
  cases result with
  | error e => rfl
  | ok p =>
    rfl

lemma transcript_eq_followed (limit : ℕ) (stream : Bytes) :
    transcript limit stream = followed limit (ReadMessage limit stream) := by
  rw [transcript]
  split
  · next written e h => rw [h, followed]
  · next written messageType data rest h =>
    dsimp only
    rw [h, followed]
    unfold after
    rw [append_assoc]
    rfl

/-- Calling `ReadMessage` again and again, from the beginning of a message. -/
lemma transcript_eq_resume (limit : ℕ) (stream : Bytes) :
    transcript limit stream = resume limit none stream := by
  rw [transcript_eq_followed, ReadMessage]
  unfold resume msgType buf
  dsimp only
  split
  · next e h =>
    rw [h]
    rfl
  · next opcode payload rest h =>
    rw [h]
    unfold route
    dsimp only
    split_ifs with hping hpong hclose hdata
    · rw [followed_cons, ← transcript_eq_followed]
    · rw [← transcript_eq_followed]
    · rfl
    · rfl
    · rfl

/-! ## One frame -/

/-- A frame over the limit is refused. -/
lemma resume_over {limit : ℕ} (q : Fragments) {f : Frame} (h : limit < f.payload.length)
    (rest : Bytes) : resume limit q (f.encode ++ rest) = ([], .ErrWSInvalidFrame) := by
  have hframe := readFrame_encode limit f rest
  rw [if_pos h] at hframe
  unfold resume
  rw [readMessage_of_error hframe, route]

/-- A frame of data completes its message, or `readMessage` goes on with the fragments. -/
lemma after_complete (limit : ℕ) (type : DataType) (data : Bytes) (fin : Bool) (rest : Bytes) :
    after (complete type data fin) (resume limit (extend type data fin) rest) =
      route limit (if fin then .ok ((type.code, data), rest)
        else readMessage limit type.code data rest) := by
  cases fin with
  | true =>
    rw [extend, if_pos rfl, ← transcript_eq_resume]
    cases type <;> rfl
  | false => rfl

section Within

variable {limit : ℕ} {f : Frame} (hlen : f.payload.length ≤ limit)
include hlen

/-- `readMessage` with a frame within the limit. -/
lemma readFrame_within (rest : Bytes) :
    readFrame limit (f.encode ++ rest) = .ok (⟨f.opcode.code, f.fin, f.payload⟩, rest) := by
  rw [readFrame_encode, if_neg (Nat.not_lt.2 hlen)]

/-- A ping or pong is answered, and the fragments are forgotten. -/
lemma resume_control (q : Fragments) (hcontrol : f.opcode = .ping ∨ f.opcode = .pong)
    (rest : Bytes) :
    resume limit q (f.encode ++ rest) = after (emits q f) (resume limit none rest) := by
  rw [← transcript_eq_resume]
  unfold resume emits
  rw [readMessage_of_ok (readFrame_within hlen rest)]
  obtain hop | hop := hcontrol
  · rw [hop]
    rfl
  · rw [hop]
    rfl

/-- A continuation of nothing is refused. -/
lemma resume_lost (hop : f.opcode = .continuation) (rest : Bytes) :
    resume limit none (f.encode ++ rest) = ([], .ErrWSInvalidFrame) := by
  unfold resume
  rw [readMessage_of_ok (readFrame_within hlen rest), hop]
  rfl

/-- A first frame of data, of a message of the given type. -/
lemma resume_first (type : DataType) (hop : f.opcode.code = type.code) (rest : Bytes) :
    resume limit none (f.encode ++ rest) =
      after (complete type f.payload f.fin) (resume limit (extend type f.payload f.fin) rest) := by
  rw [after_complete, resume, readMessage_of_ok (readFrame_within hlen rest), hop]
  cases type <;> rfl

end Within

variable {limit : ℕ} {f : Frame}

lemma readMessage_continuation {m : ℕ} {b : Bytes} (hm : m ≠ 0)
    (hlen : b.length + f.payload.length ≤ limit) (hop : f.opcode = .continuation)
    (rest : Bytes) :
    readMessage limit m b (f.encode ++ rest) =
      if f.fin then .ok ((m, b ++ f.payload), rest)
      else readMessage limit m (b ++ f.payload) rest := by
  have hdata : ¬ (Opcode.continuation.code = CloseMessage ∨
      Opcode.continuation.code = PingMessage ∨ Opcode.continuation.code = PongMessage) := by
    decide
  rw [readMessage_of_ok (readFrame_within (by omega) rest), hop, if_neg hdata,
    if_pos (show Opcode.continuation.code = continuationFrame from rfl), if_neg hm,
    if_neg (Nat.not_lt.2 hlen)]

/-- A fragment behind the others. -/
lemma resume_continuation {type : DataType} {data : Bytes}
    (hlen : data.length + f.payload.length ≤ limit) (hop : f.opcode = .continuation)
    (rest : Bytes) :
    resume limit (some (type, data)) (f.encode ++ rest) =
      after (complete type (data ++ f.payload) f.fin)
        (resume limit (extend type (data ++ f.payload) f.fin) rest) := by
  have htype : msgType (some (type, data)) ≠ 0 := by
    cases type <;> exact Nat.succ_ne_zero _
  rw [after_complete]
  exact congrArg (route limit) (readMessage_continuation htype hlen hop rest)

/-- **A frame of data does what it should**, as long as the code has the fragments. -/
lemma resume_data {p : Fragments} (hallowed : allowed limit p f = true)
    (hdata : f.opcode.control = false) (rest : Bytes) :
    resume limit p (f.encode ++ rest) = after (emits p f) (resume limit (next p f) rest) := by
  unfold allowed at hallowed
  unfold emits next
  cases hop : f.opcode with
  | continuation =>
    rw [hop] at hallowed
    cases p with
    | none => cases hallowed
    | some p => exact resume_continuation (of_decide_eq_true hallowed) hop rest
  | text =>
    rw [hop] at hallowed
    cases p with
    | none => exact resume_first (of_decide_eq_true hallowed) .text (by rw [hop]; rfl) rest
    | some p => cases hallowed
  | binary =>
    rw [hop] at hallowed
    cases p with
    | none => exact resume_first (of_decide_eq_true hallowed) .binary (by rw [hop]; rfl) rest
    | some p => cases hallowed
  | close | ping | pong =>
    rw [hop] at hdata
    cases hdata

/-- At the end of the frames the fragments do not matter. -/
lemma resume_closing (q : Fragments) {tail : Bytes} (h : Closing tail) :
    resume limit q tail = transcript limit tail := by
  rw [transcript_eq_resume]
  obtain rfl | ⟨c, rest, hop, rfl⟩ := h
  · unfold resume
    rw [readMessage_of_error rfl, readMessage_of_error rfl]
  · by_cases hlen : c.payload.length ≤ limit
    · unfold resume
      rw [readMessage_of_ok (readFrame_within hlen rest),
        readMessage_of_ok (readFrame_within hlen rest), hop]
      rfl
    · rw [resume_over q (Nat.lt_of_not_le hlen), resume_over none (Nat.lt_of_not_le hlen)]

lemma transcript_nil (limit : ℕ) : transcript limit [] = ([], .eof) := by
  rw [transcript_eq_resume]
  unfold resume
  rw [readMessage_of_error rfl, route]

/-! ## All frames -/

/-- The transcript is as expected, where the client has sent the fragments `p` and the code has
kept the fragments `q`. -/
def Comes (limit : ℕ) (q p : Fragments) (frames : List Frame) : Prop :=
  ∀ tail, Closing tail →
    resume limit q (encodeAll frames ++ tail) = after (expected p frames) (transcript limit tail)

lemma reassembles_iff_comes {frames : List Frame} :
    Reassembles limit frames ↔ Comes limit none none frames := by
  unfold Reassembles Comes
  simp only [← transcript_eq_resume]

section Step

variable {limit : ℕ} {q q' p : Fragments} {f : Frame} {fs : List Frame}

lemma encodeAll_cons_append (tail : Bytes) :
    encodeAll (f :: fs) ++ tail = f.encode ++ (encodeAll fs ++ tail) := by
  unfold encodeAll
  rw [flatMap_cons, append_assoc]

/-- A frame that does what it should leaves the question to the others. -/
lemma comes_cons (hstep : ∀ rest, resume limit q (f.encode ++ rest) =
    after (emits p f) (resume limit q' rest)) :
    Comes limit q p (f :: fs) ↔ Comes limit q' (next p f) fs := by
  refine forall_congr' fun tail => imp_congr_right fun _ => ?_
  rw [encodeAll_cons_append, hstep, expected, ← after_after, after_inj]

/-- After a frame that is refused, not even the end is reported. -/
lemma not_comes_of_refused
    (hrefused : ∀ rest, resume limit q (f.encode ++ rest) = ([], .ErrWSInvalidFrame)) :
    ¬ Comes limit q p (f :: fs) := by
  intro h
  have hnil := h [] (.inl rfl)
  rw [encodeAll_cons_append, hrefused, transcript_nil] at hnil
  exact Err.noConfusion (congrArg Prod.snd hnil)

end Step

/-- A frame that may come directly behind the other: not a fragment behind a ping or pong. -/
def Follows (f g : Frame) : Prop :=
  f.opcode.control = true → g.opcode ≠ .continuation

instance (f g : Frame) : Decidable (Follows f g) := by
  unfold Follows
  infer_instance

variable {limit : ℕ} {p : Fragments} {f : Frame}

/-- No fragment comes where no message was begun. -/
lemma head_of_legal_none {fs : List Frame} (h : legal limit none fs = true) :
    ∀ g ∈ fs.head?, g.opcode ≠ .continuation := by
  intro g hg hop
  cases fs with
  | nil => cases hg
  | cons f fs =>
    cases hg
    rw [legal, Bool.and_eq_true_iff] at h
    unfold allowed at h
    rw [hop] at h
    exact Bool.noConfusion h.1

/-- A frame of data behind fragments continues them. -/
lemma continuation_of_allowed
    (h : allowed limit p f = true) (hp : p ≠ none) (hdata : f.opcode.control = false) :
    f.opcode = .continuation ∧ f.payload.length ≤ limit := by
  unfold allowed at h
  cases p with
  | none => exact (hp rfl).elim
  | some p =>
    cases hop : f.opcode with
    | continuation =>
      rw [hop] at h
      exact ⟨rfl, (Nat.le_add_left _ _).trans (of_decide_eq_true h)⟩
    | text | binary =>
      rw [hop] at h
      cases h
    | close | ping | pong =>
      rw [hop] at hdata
      cases hdata

lemma ping_or_pong (hcontrol : f.opcode.control = true) (hclose : f.opcode ≠ .close) :
    f.opcode = .ping ∨ f.opcode = .pong := by
  cases hop : f.opcode with
  | continuation | text | binary =>
    rw [hop] at hcontrol
    cases hcontrol
  | close => exact (hclose hop).elim
  | ping => exact .inl rfl
  | pong => exact .inr rfl

lemma next_control (p : Fragments) (h : f.opcode = .ping ∨ f.opcode = .pong) : next p f = p := by
  unfold next
  obtain h | h := h <;> rw [h]

lemma emits_control (q p : Fragments) (h : f.opcode = .ping ∨ f.opcode = .pong) :
    emits q f = emits p f := by
  unfold emits
  obtain h | h := h <;> rw [h]

/-- **The frames come out as expected if no fragment is lost.**

**Proof sketch.** Induction on the frames. A ping or pong within the limit is answered, and the
code goes on without fragments. A frame of data is handled as it should be if the code has the
fragments of the client. If it has lost them, the frame is a fragment of a message, which the code
refuses. -/
lemma comes_iff {q : Fragments} {frames : List Frame}
    (hlegal : legal limit p frames = true) (hopen : ∀ f ∈ frames, f.opcode ≠ .close)
    (hq : q = p ∨ q = none) :
    Comes limit q p frames ↔
      (q ≠ p → ∀ g ∈ frames.head?, g.opcode ≠ .continuation) ∧ frames.IsChain Follows ∧
        ∀ f ∈ frames, f.opcode.control = true → f.payload.length ≤ limit := by
  induction frames generalizing q p with
  | nil =>
    refine iff_of_true (fun tail htail => resume_closing q htail) ⟨fun _ g hg => ?_, .nil, ?_⟩
    · cases hg
    · intro f hf
      cases hf
  | cons f fs ih =>
    rw [legal, Bool.and_eq_true_iff] at hlegal
    obtain ⟨hallowed, hlegal⟩ := hlegal
    have hopen' : ∀ g ∈ fs, g.opcode ≠ .close := (forall_mem_cons.1 hopen).2
    rw [isChain_cons, forall_mem_cons]
    cases hcontrol : f.opcode.control with
    | true =>
      have hop := ping_or_pong hcontrol (hopen f mem_cons_self)
      rw [next_control p hop] at hlegal
      by_cases hlen : f.payload.length ≤ limit
      · rw [comes_cons fun rest => (resume_control hlen q hop rest).trans
            (by rw [emits_control q p hop]),
          next_control p hop, ih hlegal hopen' (.inr rfl)]
        -- behind a ping or pong the code has no fragments; the client has, unless it has begun none
        have hhead : (none ≠ p → ∀ g ∈ fs.head?, g.opcode ≠ .continuation) ↔
            ∀ g ∈ fs.head?, Follows f g := by
          constructor
          · intro h g hg _
            by_cases hp : p = none
            · exact head_of_legal_none (hp ▸ hlegal) g hg
            · exact h (Ne.symm hp) g hg
          · intro h _ g hg
            exact h g hg hcontrol
        have hfirst : q ≠ p → ∀ g ∈ (f :: fs).head?, g.opcode ≠ .continuation := by
          intro _ g hg
          cases hg
          obtain hop | hop := hop <;> rw [hop] <;> nofun
        rw [hhead]
        constructor
        · rintro ⟨hfs, hchain, hshort⟩
          exact ⟨hfirst, ⟨hfs, hchain⟩, fun _ => hlen, hshort⟩
        · rintro ⟨-, ⟨hfs, hchain⟩, -, hshort⟩
          exact ⟨hfs, hchain, hshort⟩
      · refine iff_of_false (not_comes_of_refused (resume_over q (Nat.lt_of_not_le hlen))) ?_
        rintro ⟨-, -, hshort, -⟩
        exact hlen (hshort rfl)
    | false =>
      have hdata : ∀ g ∈ fs.head?, Follows f g := by
        intro g _ h
        rw [hcontrol] at h
        cases h
      by_cases hqp : q = p
      · subst hqp
        rw [comes_cons (resume_data hallowed hcontrol), ih hlegal hopen' (.inl rfl)]
        constructor
        · rintro ⟨-, hchain, hshort⟩
          exact ⟨fun h => (h rfl).elim, ⟨hdata, hchain⟩, nofun, hshort⟩
        · rintro ⟨-, ⟨-, hchain⟩, -, hshort⟩
          exact ⟨fun h => (h rfl).elim, hchain, hshort⟩
      · obtain rfl := hq.resolve_left hqp
        obtain ⟨hop, hlen⟩ := continuation_of_allowed hallowed (Ne.symm hqp) hcontrol
        refine iff_of_false (not_comes_of_refused (resume_lost hlen hop)) ?_
        rintro ⟨hfirst, -⟩
        exact hfirst hqp f rfl hop

/-! ## The limit -/

/-- Every message that a call of `ReadMessage` adds is within the limit. -/
lemma message_length_le (limit : ℕ) (stream : Bytes) :
    ∀ t data, Event.message t data ∈ (transcript limit stream).1 → data.length ≤ limit := by
  fun_induction transcript limit stream with
  | case1 stream written e h =>
    intro t data hmem
    obtain ⟨b, -, hb⟩ := mem_map.1 hmem
    cases hb
  | case2 stream written messageType bytes rest h hlt events e hrec ih =>
    intro t data hmem
    rw [hrec] at ih
    have hread := ReadMessage_ensures limit stream
    rw [h] at hread
    obtain hmem | hmem := mem_append.1 hmem
    · obtain ⟨b, -, hb⟩ := mem_map.1 hmem
      cases hb
    · obtain heq | hmem := mem_cons.1 hmem
      · cases heq
        exact (hread _ rfl).1
      · exact ih t data hmem

/-- **Reassembly.** The messages of a client come out as expected, for every order of its frames
that is allowed, if and only if no fragment comes directly behind a ping or pong and no ping or pong
is over the limit. No message that is delivered is over the limit, whatever the client sends. -/
theorem reassembles_iff (maxMessageSize : ℤ) (frames : List Frame)
    (hlegal : legal (messageLimit maxMessageSize) none frames = true)
    (hopen : ∀ f ∈ frames, f.opcode ≠ .close) :
    (Reassembles (messageLimit maxMessageSize) frames ↔
      frames.IsChain Follows ∧
        ∀ f ∈ frames, f.opcode.control = true → f.payload.length ≤ messageLimit maxMessageSize) ∧
    ∀ (stream : Bytes) (t : ℕ) (data : Bytes),
      Event.message t data ∈ (transcript (messageLimit maxMessageSize) stream).1 →
        data.length ≤ messageLimit maxMessageSize := by
  refine ⟨?_, message_length_le _⟩
  rw [reassembles_iff_comes, comes_iff hlegal hopen (.inl rfl)]
  constructor
  · rintro ⟨-, h⟩
    exact h
  · intro h
    exact ⟨fun hne => (hne rfl).elim, h⟩

/-! ## A message in two fragments -/

/-- A frame with a short payload and the key zero. -/
def shortFrame (opcode : Opcode) (fin : Bool) (b : UInt8)
    (h : opcode.control = true → fin = true) : Frame where
  opcode := opcode
  fin := fin
  maskKey := [0, 0, 0, 0]
  payload := [b]
  maskKey_length := rfl
  payload_length := (by decide : 1 < 2 ^ 63)
  control_short := fun hc => ⟨h hc, (by decide : 1 ≤ 125)⟩

def firstFragment : Frame := shortFrame .text false 97 nofun
def lastFragment : Frame := shortFrame .continuation true 98 nofun
def pingFrame : Frame := shortFrame .ping true 33 fun _ => rfl

/-- A ping, a message in two fragments and another ping. -/
theorem reassembles_iff_back_to_back :
    Reassembles (messageLimit 0) [pingFrame, firstFragment, lastFragment, pingFrame] :=
  (reassembles_iff 0 [pingFrame, firstFragment, lastFragment, pingFrame] (by decide)
    (by decide)).1.2 (by decide)

/-- A ping between the fragments of a message: the ping is answered, and then `ReadMessage` reports
`ErrWSInvalidFrame` in place of the message. -/
theorem fragments_lost :
    legal (messageLimit 0) none [firstFragment, pingFrame, lastFragment] = true ∧
    (∀ f ∈ [firstFragment, pingFrame, lastFragment], f.opcode ≠ .close) ∧
    expected none [firstFragment, pingFrame, lastFragment] =
      [.wrote (writeFrame PongMessage [33]), .message TextMessage [97, 98]] ∧
    transcript (messageLimit 0) (encodeAll [firstFragment, pingFrame, lastFragment]) =
      ([.wrote (writeFrame PongMessage [33])], .ErrWSInvalidFrame) ∧
    ¬ Reassembles (messageLimit 0) [firstFragment, pingFrame, lastFragment] := by
  have htranscript : transcript (messageLimit 0)
      (encodeAll [firstFragment, pingFrame, lastFragment]) =
      ([.wrote (writeFrame PongMessage [33])], .ErrWSInvalidFrame) := by
    rw [transcript_eq_resume, ← append_nil (encodeAll _), encodeAll_cons_append,
      resume_data (by decide) rfl, encodeAll_cons_append, resume_control (by decide) _ (.inl rfl),
      encodeAll_cons_append, resume_lost (by decide) rfl]
    rfl
  refine ⟨by decide, by decide, rfl, htranscript, fun h => ?_⟩
  have hnil := h [] (.inl rfl)
  rw [append_nil, htranscript, transcript_nil] at hnil
  exact Err.noConfusion (congrArg Prod.snd hnil)

end Yukino.Http.WebSocket
