import Yukino.Rpc.TcpClient

set_option autoImplicit false

/-!
# The server of `libs/yukino_rpc`

`Handle` takes the requests of a connection one after the other. A request is refused by the rate
limit, answered with an error or a result, or it starts a goroutine that sends the frames of a
stream.

## Main definitions

* `Answer`, `Answer.message` — what the server writes for a request.
* `Server.invoke`, `Server.Process`, `Server.Handle` — the
  handling of a request.

## Design

Values of Go are values of a type `V`; a codec is any pair of functions that may fail with a text.
A method is what `invoke` asks `reflect` about its type. What a method returns, or the text of its
panic, is a parameter of `Handle`, so that a run has any behaviour of the methods.
-/

namespace Yukino.Rpc

open Bool Option

/-- What the server writes for a request. -/
inductive Answer
  | error (text : String)
  | result (body : Bytes)
  /-- `Send` of a stream. -/
  | data (body : Bytes)
  /-- `end` of a stream. -/
  | ended
  /-- `sendError` of a stream. -/
  | streamError (text : String)
  deriving DecidableEq

/-- The message for the answer. -/
def Answer.message (a : Answer) (requestID : ℕ) : Message :=
  let header : Header := { requestID := requestID, compression := CompressionGzip }
  match a with
  | .error text => { header with error := text }
  | .result body => { header with body := body }
  | .data body => { header with streamFlag := .StreamData, body := body }
  | .ended => { header with streamFlag := .StreamEnd }
  | .streamError text => { header with streamFlag := .StreamError, error := text }

structure Codec (V : Type*) where
  Marshal : V → Except String Bytes
  /-- `Unmarshal` into a value of the type with this index. -/
  Unmarshal : ℕ → Bytes → Except String V

/-- The type of a method, as far as `invoke` looks at it. -/
structure Signature where
  numIn : ℕ
  numOut : ℕ
  /-- The types that the parameters point to. -/
  in0Elem : ℕ
  in1Elem : ℕ
  in0Context : Bool
  in0Pointer : Bool
  in1Pointer : Bool
  in1Stream : Bool
  out0Pointer : Bool
  out0Error : Bool
  out1Error : Bool
  deriving DecidableEq

namespace Signature

/-- `func(context.Context, *Request) (*Reply, error)`. -/
def isContext (m : Signature) : Bool :=
  m.numIn = 2 ∧ m.numOut = 2 ∧ m.in0Context ∧ m.in1Pointer ∧ m.out0Pointer ∧ m.out1Error

/-- Two parameters and an error: the second parameter is a stream or a pointer to the reply. -/
def isPlain (m : Signature) : Bool :=
  m.numIn = 2 ∧ m.numOut = 1 ∧ m.out0Error

/-- The method is called with a stream. -/
def isStreaming (m : Signature) : Bool :=
  !m.isContext && m.isPlain && m.in0Pointer && m.in1Stream

end Signature

/-- The methods of a service by their names. -/
abbrev Service := String → Option Signature

/-- A server: its services, the codecs that are registered, and the codec of its handler. -/
structure Server (V : Type*) where
  services : String → Option Service
  codecs : ℕ → Option (Codec V)
  codec : Codec V

/-- What `invoke` returns. -/
inductive Invoked (V : Type*)
  | failed (err : String)
  | streaming
  | result (value : Option V)

variable {V : Type*}

/-- The request of a body, which is not decoded if it is empty. -/
def decodeBody (cc : Codec V) (elem : ℕ) (body : Bytes) : Except String (Option V) :=
  if body.length > 0 then (cc.Unmarshal elem body).map some else .ok none

def Invoked.ofReply : Except String (Option V) → Invoked V
  | .error err => .failed err
  | .ok value => .result value

/-- `invoke` once it has found the method: if the method is called and returns, it gives the
reply. -/
def invokeMethod (m : Signature) (name : String) (body : Bytes) (cc : Codec V)
    (reply : Except String (Option V)) : Invoked V :=
  if m.isContext then
    match decodeBody cc m.in1Elem body with
    | .error err => .failed err
    | .ok _ => .ofReply reply
  else if m.isPlain then
    if !m.in0Pointer then .failed ("unsupported method signature: " ++ name)
    else
      match decodeBody cc m.in0Elem body with
      | .error err => .failed err
      | .ok _ =>
        if m.in1Stream then .streaming
        else if m.in1Pointer then .ofReply reply
        else .failed ("unsupported method signature: " ++ name)
  else .failed ("unsupported method signature: " ++ name)

def invoke (service : Option Service) (serviceName methodName : String) (body : Bytes)
    (cc : Codec V) (reply : Except String (Option V)) : Invoked V :=
  match service with
  | none => .failed ("service not found: " ++ serviceName)
  | some service =>
    match service methodName with
    | none => .failed ("method not found: " ++ serviceName ++ "." ++ methodName)
    | some m => invokeMethod m (serviceName ++ "." ++ methodName) body cc reply

namespace Server

variable (h : Server V)

/-- The codec of a request. -/
def codecOf (msg : Message) : Option (Codec V) :=
  if msg.codecType ≠ 0 then h.codecs msg.codecType else some h.codec

/-- `Process`: an answer that it writes, or `none` if it has started a stream. -/
def Process (msg : Message) (reply : Except String (Option V)) : Option Answer :=
  match h.codecOf msg with
  | none => some (.error ("codec: type " ++ toString msg.codecType ++ " not registered"))
  | some cc =>
    match invoke (h.services msg.serviceName) msg.serviceName msg.methodName msg.body cc reply with
    | .streaming => none
    | .failed err => some (.error err)
    | .result none => some (.result [])
    | .result (some value) =>
      match cc.Marshal value with
      | .error err => some (.error err)
      | .ok body => some (.result body)

/-- A round of the loop of `Handle`, with the tokens that the limiter has. -/
def Handle (tokens : ℕ) (msg : Message) (reply : Except String (Option V)) : Option Answer × ℕ :=
  if tokens = 0 then (some (.error "rate limit exceeded"), tokens)
  else (h.Process msg reply, tokens - 1)

/-- **The request gets as far as the call of a streaming method**: the limiter lets it pass, its
codec, service and method exist, the method takes a stream, and the body can be decoded. -/
def reachesStream (tokens : ℕ) (msg : Message) : Bool :=
  decide (0 < tokens) && (h.codecOf msg).any fun cc =>
    (h.services msg.serviceName).any fun service =>
      (service msg.methodName).any fun m =>
        m.isStreaming && (decodeBody cc m.in0Elem msg.body).isOk

/-- The error has an empty text. -/
def isSilent {α : Type*} : Except String α → Bool
  | .error text => text = ""
  | .ok _ => false

/-- No error that the codec or the method reports for the request has an empty text. -/
def errorsHaveText (msg : Message) (reply : Except String (Option V)) : Bool :=
  !isSilent reply && (h.codecOf msg).all fun cc =>
    ((h.services msg.serviceName).all fun service =>
      (service msg.methodName).all fun m =>
        !isSilent (cc.Unmarshal m.in0Elem msg.body) &&
          !isSilent (cc.Unmarshal m.in1Elem msg.body)) &&
    match reply with
    | .ok (some value) => !isSilent (cc.Marshal value)
    | _ => true

/-! ## The answer to a request -/

lemma ofReply_ne_streaming (reply : Except String (Option V)) :
    Invoked.ofReply reply ≠ .streaming := by
  cases reply <;> nofun

lemma invokeMethod_streaming (m : Signature) (name : String) (body : Bytes) (cc : Codec V)
    (reply : Except String (Option V)) :
    invokeMethod m name body cc reply = .streaming ↔
      (m.isStreaming && (decodeBody cc m.in0Elem body).isOk) = true := by
  have hreply := ofReply_ne_streaming reply
  unfold invokeMethod Signature.isStreaming
  cases m.isContext with
  | true => cases decodeBody cc m.in1Elem body <;> simp [hreply]
  | false =>
    cases m.isPlain with
    | false => simp
    | true =>
      cases m.in0Pointer with
      | false => simp
      | true =>
        cases decodeBody cc m.in0Elem body with
        | error err => simp [Except.toBool]
        | ok value =>
          cases m.in1Stream with
          | true => simp [Except.toBool]
          | false => cases m.in1Pointer <;> simp [hreply]

lemma invoke_streaming (service : Option Service) (serviceName methodName : String) (body : Bytes)
    (cc : Codec V) (reply : Except String (Option V)) :
    invoke service serviceName methodName body cc reply = .streaming ↔
      (service.any fun service => (service methodName).any fun m =>
        m.isStreaming && (decodeBody cc m.in0Elem body).isOk) = true := by
  cases service with
  | none => exact iff_of_false nofun nofun
  | some service =>
    unfold invoke
    dsimp only [any_some]
    cases service methodName with
    | none => exact iff_of_false nofun nofun
    | some m => exact invokeMethod_streaming m _ body cc reply

/-- **The server starts a stream** exactly for the requests that reach a streaming method. -/
lemma Handle_none_iff (tokens : ℕ) (msg : Message) (reply : Except String (Option V)) :
    (h.Handle tokens msg reply).1 = none ↔ h.reachesStream tokens msg = true := by
  unfold Handle reachesStream
  split
  · next htokens => simp [htokens]
  · next htokens =>
    rw [decide_eq_true (Nat.pos_of_ne_zero htokens), Bool.true_and]
    unfold Process
    cases h.codecOf msg with
    | none => simp
    | some cc =>
      dsimp only [any_some]
      rw [← invoke_streaming _ msg.serviceName msg.methodName msg.body cc reply]
      split
      · next hinvoke => exact iff_of_true rfl hinvoke
      · next hinvoke => exact iff_of_false nofun (hinvoke ▸ nofun)
      · next hinvoke => exact iff_of_false nofun (hinvoke ▸ nofun)
      · next hinvoke =>
        refine iff_of_false ?_ (hinvoke ▸ nofun)
        split <;> nofun

/-- An answer for a future: a result, or an error that is recognised by its text. -/
def isUnary : Answer → Bool
  | .error text => text ≠ ""
  | .result _ => true
  | _ => false

lemma text_of_not_isSilent {α : Type*} {x : Except String α} {text : String}
    (hx : (!isSilent x) = true) (htext : x = .error text) : text ≠ "" := by
  rintro rfl
  rw [htext] at hx
  cases hx

variable {cc : Codec V} {body : Bytes} {err name serviceName methodName : String}
  {reply : Except String (Option V)} {value : Option V} {m : Signature} {service : Option Service}

lemma decodeBody_error {elem : ℕ}
    (hd : decodeBody cc elem body = .error err) : cc.Unmarshal elem body = .error err := by
  unfold decodeBody at hd
  split at hd
  · cases hu : cc.Unmarshal elem body with
    | error err' =>
      rw [hu] at hd
      cases hd
      rfl
    | ok value =>
      rw [hu] at hd
      cases hd
  · cases hd

lemma ofReply_failed (h : Invoked.ofReply reply = .failed err) : reply = .error err := by
  cases reply with
  | error err' =>
    cases h
    rfl
  | ok value => cases h

lemma ofReply_result (h : Invoked.ofReply reply = .result value) : reply = .ok value := by
  cases reply with
  | error err => cases h
  | ok value' =>
    cases h
    rfl

/-- Where an error of `invoke` comes from once it has found the method. -/
lemma invokeMethod_failed
    (h : invokeMethod m name body cc reply = .failed err) :
    cc.Unmarshal m.in1Elem body = .error err ∨ cc.Unmarshal m.in0Elem body = .error err ∨
      reply = .error err ∨ err = "unsupported method signature: " ++ name := by
  unfold invokeMethod at h
  split at h
  · split at h
    · next hd =>
      cases h
      exact .inl (decodeBody_error hd)
    · exact .inr (.inr (.inl (ofReply_failed h)))
  · split at h
    · split at h
      · cases h
        exact .inr (.inr (.inr rfl))
      · split at h
        · next hd =>
          cases h
          exact .inr (.inl (decodeBody_error hd))
        · split at h
          · cases h
          · split at h
            · exact .inr (.inr (.inl (ofReply_failed h)))
            · cases h
              exact .inr (.inr (.inr rfl))
    · cases h
      exact .inr (.inr (.inr rfl))

lemma invokeMethod_result
    (h : invokeMethod m name body cc reply = .result value) : reply = .ok value := by
  unfold invokeMethod at h
  split at h
  · split at h
    · cases h
    · exact ofReply_result h
  · split at h
    · split at h
      · cases h
      · split at h
        · cases h
        · split at h
          · cases h
          · split at h
            · exact ofReply_result h
            · cases h
    · cases h

/-- An error of `invoke` has a text, if those of the codec and of the method have one. -/
lemma invoke_failed
    (hreply : (!isSilent reply) = true)
    (hcodec : (service.all fun service => (service methodName).all fun m =>
      !isSilent (cc.Unmarshal m.in0Elem body) && !isSilent (cc.Unmarshal m.in1Elem body)) = true)
    (h : invoke service serviceName methodName body cc reply = .failed err) : err ≠ "" := by
  unfold invoke at h
  split at h
  · cases h
    simp
  next service =>
    rw [all_some] at hcodec
    split at h
    · cases h
      simp
    next m hm =>
      rw [hm, all_some, and_eq_true] at hcodec
      obtain hu | hu | hr | rfl := invokeMethod_failed h
      · exact text_of_not_isSilent hcodec.2 hu
      · exact text_of_not_isSilent hcodec.1 hu
      · exact text_of_not_isSilent hreply hr
      · simp

lemma invoke_result
    (h : invoke service serviceName methodName body cc reply = .result value) :
    reply = .ok value := by
  unfold invoke at h
  split at h
  · cases h
  · split at h
    · cases h
    · exact invokeMethod_result h

/-- What `Handle` writes itself is an error with a text, or a result. -/
lemma Handle_isUnary {tokens : ℕ} {msg : Message} {a : Answer}
    (htext : h.errorsHaveText msg reply = true) (ha : (h.Handle tokens msg reply).1 = some a) :
    isUnary a = true := by
  unfold errorsHaveText at htext
  rw [and_eq_true] at htext
  obtain ⟨hreply, hcodec⟩ := htext
  unfold Handle at ha
  split at ha
  · cases ha
    rfl
  unfold Process at ha
  cases hcc : h.codecOf msg with
  | none =>
    rw [hcc] at ha
    cases ha
    simp [isUnary]
  | some cc =>
    rw [hcc, all_some, and_eq_true] at hcodec
    rw [hcc] at ha
    dsimp only at ha
    split at ha
    · cases ha
    · next hinvoke =>
      cases ha
      exact decide_eq_true (invoke_failed hreply hcodec.1 hinvoke)
    · cases ha
      rfl
    · next value hinvoke =>
      split at ha
      · next hmarshal =>
        cases ha
        rw [invoke_result hinvoke] at hcodec
        exact decide_eq_true (text_of_not_isSilent hcodec.2 hmarshal)
      · cases ha
        rfl

end Server

end Yukino.Rpc
