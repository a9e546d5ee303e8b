import Yukino.Lib.Json

set_option autoImplicit false

/-!
# What a worker reads of a conversation request

`tryEnqueueAsync` keeps a request in a row and sends it to the stream. When its worker has stopped,
`ScanOnce` sends it again from the row.

## Main results

* `requeued_iff` — when the second worker reads what the first one has read.

## Design

JSON and the columns of a row return what was written: a body is the object that is marshalled. The
members that a worker reads have the types of its fields.
-/

namespace Yukino.CreativeAgent

open Json (field)

/-- The fields of a request that are sent. -/
structure ConversationRequest where
  userID : ℤ
  sessionID : String
  agentID : String
  query : String
  requestType : String
  resume : Bool
  originMsgID : String

/-- The body of a message of the stream. -/
abbrev Body := Json.Object ℤ

structure ConversationPayload where
  asyncRequestID : String
  msgID : String
  userID : ℤ
  sessionID : String
  agentID : String
  query : String
  requestType : String
  resume : Bool
  originMsgID : String
  traceParent : String

/-- `json.Unmarshal`: a field keeps its zero value if there is no member with its tag. -/
def ConversationPayload.unmarshal (body : Body) : ConversationPayload where
  asyncRequestID := (field body "async_request_id").asText
  msgID := (field body "msg_id").asText
  userID := (field body "user_id").asNumber id
  sessionID := (field body "session_id").asText
  agentID := (field body "agent_id").asText
  query := (field body "query").asText
  requestType := (field body "requestType").asText
  resume := (field body "resume").asBool
  originMsgID := (field body "originMsgId").asText
  traceParent := (field body "traceparent").asText

/-- `CGAsyncRequest`, without the columns that no body is made from. -/
structure AsyncRow where
  asyncRequestID : String
  messageID : String
  userID : ℤ
  sessionID : String
  agentID : String
  query : String

/-- The row and the message of a request. -/
def tryEnqueueAsync (req : ConversationRequest) (asyncReqID msgID trace : String) :
    AsyncRow × Body :=
  (⟨asyncReqID, msgID, req.userID, req.sessionID, req.agentID, req.query⟩,
    [("async_request_id", .text asyncReqID), ("msg_id", .text msgID),
      ("user_id", .number req.userID), ("session_id", .text req.sessionID),
      ("agent_id", .text req.agentID), ("query", .text req.query),
      ("requestType", .text req.requestType), ("resume", .bool req.resume),
      ("originMsgId", .text req.originMsgID), ("traceparent", .text trace)])

/-- The message of strategy B of `ScanOnce`. -/
def requeueBody (z : AsyncRow) (trace : String) : Body :=
  [("async_request_id", .text z.asyncRequestID), ("msg_id", .text z.messageID),
    ("user_id", .number z.userID), ("session_id", .text z.sessionID),
    ("agent_id", .text z.agentID), ("query", .text z.query), ("traceparent", .text trace)]

open ConversationPayload (unmarshal)

/-- **The second worker reads what the first one has read**, but for the trace, if and only if the
request has no type, does not resume and follows no message. -/
theorem requeued_iff (req : ConversationRequest) (asyncReqID msgID trace trace' : String) :
    { unmarshal (requeueBody (tryEnqueueAsync req asyncReqID msgID trace).1 trace') with
        traceParent := trace } = unmarshal (tryEnqueueAsync req asyncReqID msgID trace).2 ↔
      req.requestType = "" ∧ req.resume = false ∧ req.originMsgID = "" := by
  simp [unmarshal, requeueBody, tryEnqueueAsync, field, List.lookup_cons, Json.asText,
    Json.asNumber, Json.asBool, @eq_comm _ "", @eq_comm _ false]

/-- A request that resumes is read as a new one. -/
theorem resumed_as_new :
    let sent := tryEnqueueAsync ⟨1, "s", "a", "go on", "", true, ""⟩ "r" "m" "t"
    (unmarshal (requeueBody sent.1 "t")).resume = false ∧ (unmarshal sent.2).resume = true :=
  ⟨rfl, rfl⟩

end Yukino.CreativeAgent
