import Yukino.AgentProxy.Sse
import Yukino.Lib.AnthropicStream
import Yukino.Lib.Json
import Yukino.Lib.MachineInt

set_option autoImplicit false

/-!
# The Claude bridge of `apps/agent_proxy`

An upstream that speaks the Chat or the Responses protocol of OpenAI is translated into a stream of
an Anthropic message. An emitter keeps track of what has been sent.

## Main definitions

* `Claude.Emitter`, `text`, `thinkingItem`, `tool`, `finish` — the emitter.
* `Claude.chatStream`, `Claude.responsesStream` — `ChatStream`
  and `ResponsesStream`.

## Design

The library functions for JSON and base64, fresh identifiers and the sink are in `Env`. The sink is
asked with all events so far whether it fails on the last one. The emitter has the events that it
has given to the sink in `sent`; the source does not keep them. Its map `tools` and its slice
`order` of tool states are one list of pairs, since a state is put into both at once. Maps from
strings are functions with the zero value as default.
-/

namespace Yukino.AgentProxy.Claude

open AnthropicStream (Event Block Delta Usage)
open Json (Object field has)

/-- Library functions, and the sink. -/
structure Env (ν : Type) where
  /-- `json.Unmarshal` of the data of an event. -/
  unmarshal : List UInt8 → Option (Json String ν)
  /-- `json.Unmarshal` of a text. -/
  unmarshalText : String → Option (Json String ν)
  marshal : Json String ν → String
  /-- The conversion of a number to `int64`. -/
  toInt64 : ν → ℤ
  base64 : String → String
  /-- The identifier that `ID("msg_")` returns. -/
  messageID : String
  /-- The error of the sink on the last event. -/
  sink : List Event → Option String

inductive Error
  /-- The error that the sink has returned. -/
  | sink (text : String)
  /-- "read upstream stream: %w" -/
  | read
  /-- "upstream tool call requires an id and name" -/
  | toolIdentity
  /-- "upstream tool arguments must be a JSON object" -/
  | toolArguments
  /-- "upstream replaced previously streamed tool arguments" -/
  | replacedArguments
  /-- "upstream Chat stream ended without a finish_reason" -/
  | chatWithoutReason
  /-- "upstream Chat stream contains invalid JSON" -/
  | chatJson
  /-- "upstream Chat stream failed: %s" -/
  | chatFailed (message : String)
  /-- "upstream Chat stream was truncated before finish_reason" -/
  | chatTruncated
  /-- "upstream Responses stream contains invalid JSON" -/
  | responsesJson
  /-- "upstream Responses stream failed: %s" -/
  | responsesFailed (message : String)
  /-- "upstream Responses generation failed" -/
  | generationFailed
  /-- "unsupported Responses output item %q" -/
  | unsupportedItem (type : String)
  /-- "upstream Responses stream was truncated before a terminal response" -/
  | responsesTruncated
  deriving DecidableEq

/-- The kinds of blocks that `text` writes. -/
inductive Kind
  | text
  | thinking
  deriving DecidableEq

structure ToolState where
  id : String
  name : String
  args : String
  ready : Bool
  closed : Bool

structure Emitter where
  id : String
  model : String
  started : Bool
  finished : Bool
  next : ℤ
  /-- The index of the open text block, or -1. -/
  textIndex : ℤ
  textKind : Option Kind
  /-- The tool calls with their keys. -/
  order : List (String × ToolState)
  usage : Usage
  /-- The events that the sink has been given. -/
  sent : List Event

/-- The emitter, and the variables of a stream function. -/
structure Run (V : Type) where
  emitter : Emitter
  vars : V

abbrev M (V : Type) : Type → Type := EStateM Error (Run V)

section Functions

variable {ν V : Type} (env : Env ν)

/-! ## Types -/

/-- `json.Unmarshal` into a map: null leaves it nil. -/
def unmarshalObject : Option (Json String ν) → Option (Option (Object ν))
  | some .null => some none
  | some (.object o) => some (some o)
  | _ => none

/-- `Number`. -/
def number (v : Json String ν) : ℤ :=
  v.asNumber env.toInt64

/-- The first count that is not zero. -/
def orElse (n m : ℤ) : ℤ :=
  if n = 0 then m else n

/-- `Usage`. -/
def usage (u : Object ν) : Usage :=
  let input := if has u "input_tokens" then number env (field u "input_tokens")
    else number env (field u "prompt_tokens")
  let output := if has u "output_tokens" then number env (field u "output_tokens")
    else number env (field u "completion_tokens")
  let details := (field u "input_tokens_details").asObject
  let promptDetails := (field u "prompt_tokens_details").asObject
  let cached :=
    if has u "cache_read_input_tokens" then number env (field u "cache_read_input_tokens")
    else orElse (number env (field details "cached_tokens"))
      (number env (field promptDetails "cached_tokens"))
  let created := orElse (number env (field u "cache_creation_input_tokens"))
    (orElse (number env (field details "cache_write_tokens"))
      (number env (field promptDetails "cache_write_tokens")))
  { inputTokens := max 0 (MachineInt.int64 (input - cached - created))
    outputTokens := output
    cacheReadInputTokens := if 0 < cached then some cached else none
    cacheCreationInputTokens := if 0 < created then some created else none }

def stopReason (reason : String) (tools : Bool) : String :=
  if reason = "length" ∨ reason = "max_output_tokens" ∨ reason = "max_tokens" then "max_tokens"
  else if tools then "tool_use"
  else "end_turn"

def reasoningPrefix : String :=
  "yukino-openai-reasoning-v1:"

/-- The blocks that `ReasoningBlock` makes. -/
inductive Reasoning
  | redacted (data : String)
  /-- With an empty signature if there is none. -/
  | thinking (text signature : String)

/-- `ReasoningBlock`. -/
def reasoningBlock (item : Object ν) : Option Reasoning :=
  let text := String.join ((field item "summary").asList.map fun part =>
    (field part.asObject "text").asText)
  if (field item "encrypted_content").asText ≠ "" then
    let envelope := reasoningPrefix ++ env.base64 (env.marshal (.object item))
    if text = "" then some (.redacted envelope) else some (.thinking text envelope)
  else if text ≠ "" then some (.thinking text "")
  else none

/-- The input of `toolBlock`. -/
def toolBlock (id name arguments : String) : Except Error (Object ν) :=
  if id = "" ∨ name = "" then .error .toolIdentity
  else
    let arguments := if arguments = "" then "\x7b\x7d" else arguments
    match unmarshalObject (env.unmarshalText arguments) with
    | some (some input) => .ok input
    | _ => .error .toolArguments

/-! ## The emitter -/

def newEmitter (model : String) : Emitter where
  id := env.messageID
  model := model
  started := false
  finished := false
  next := 0
  textIndex := -1
  textKind := none
  order := []
  usage := usage env []
  sent := []

def emitter : M V Emitter := do
  return (← get).emitter

def modifyEmitter (f : Emitter → Emitter) : M V PUnit :=
  modify fun s => { s with emitter := f s.emitter }

def modifyVars (f : V → V) : M V PUnit :=
  modify fun s => { s with vars := f s.vars }

def send (event : Event) : M V PUnit := do
  modifyEmitter fun e => { e with sent := e.sent ++ [event] }
  match env.sink (← emitter).sent with
  | none => pure ()
  | some error => throw (.sink error)

def start : M V PUnit := do
  let e ← emitter
  if e.started then pure ()
  else do
    modifyEmitter fun e => { e with started := true }
    send env (.messageStart e.id e.model)

def closeText : M V PUnit := do
  let e ← emitter
  if e.textIndex < 0 then pure ()
  else do
    modifyEmitter fun e => { e with textIndex := -1, textKind := none }
    send env (.contentBlockStop e.textIndex)

def Kind.block : Kind → Block
  | .text => .text
  | .thinking => .thinking

def Kind.delta (text : String) : Kind → Delta
  | .text => .text text
  | .thinking => .thinking text

/-- The block that `text` opens. -/
def openText (kind : Kind) : M V PUnit := do
  closeText env
  let e ← emitter
  modifyEmitter fun e => { e with textIndex := e.next, next := e.next + 1, textKind := some kind }
  send env (.contentBlockStart e.next kind.block)

/-- A block of the kind is open. -/
def ensureText (kind : Kind) : M V PUnit := do
  let e ← emitter
  if e.textKind ≠ some kind then openText env kind else pure ()

/-- A delta for the open text block. -/
def textDelta (delta : Delta) : M V PUnit := do
  let e ← emitter
  send env (.contentBlockDelta e.textIndex delta)

def text (kind : Kind) (text : String) : M V PUnit :=
  if text = "" then pure ()
  else do
    start env
    ensureText env kind
    textDelta env (kind.delta text)

/-- The text of a thinking block, unless one is open. -/
def ensureThinking (thinking : String) : M V PUnit := do
  let e ← emitter
  if e.textKind ≠ some .thinking then text env .thinking thinking else pure ()

def signatureDelta (signature : String) : M V PUnit :=
  if signature ≠ "" then textDelta env (.signature signature) else pure ()

def thinkingItem (item : Object ν) : M V PUnit :=
  match reasoningBlock env item with
  | none => pure ()
  | some (.redacted data) => do
    start env
    closeText env
    let e ← emitter
    modifyEmitter fun e => { e with next := e.next + 1 }
    send env (.contentBlockStart e.next (.redactedThinking data))
    send env (.contentBlockStop e.next)
  | some (.thinking thinking signature) => do
    start env
    ensureThinking env thinking
    signatureDelta env signature
    closeText env

/-- A tool state is changed. -/
def setTool (key : String) (t : ToolState) : M V PUnit :=
  modifyEmitter fun e =>
    { e with order := e.order.map fun entry => if entry.1 = key then (key, t) else entry }

def emitTool (key : String) (t : ToolState) : M V PUnit := do
  match toolBlock env t.id t.name t.args with
  | .error e => throw e
  | .ok input => do
    let e ← emitter
    modifyEmitter fun e => { e with next := e.next + 1 }
    send env (.contentBlockStart e.next (.toolUse t.id t.name))
    send env (.contentBlockDelta e.next (.inputJson (env.marshal (.object input))))
    setTool key { t with closed := true }
    send env (.contentBlockStop e.next)

/-- The loop of `tool`: the tools that are ready, in order. -/
def emitReady : List (String × ToolState) → M V PUnit
  | [] => pure ()
  | (key, t) :: rest =>
    if t.closed then emitReady rest
    else if ¬ t.ready then pure ()
    else do
      emitTool env key t
      emitReady rest

/-- The arguments that are new, if all arguments are given at once. -/
def newArguments (old args : String) : Except Error String :=
  let args := if args = "" then "\x7b\x7d" else args
  if old.toList.isPrefixOf args.toList then .ok (String.ofList (args.toList.drop old.length))
  else .error .replacedArguments

/-- The state of a tool call, which is new if there is none. -/
def findTool (key : String) : M V ToolState := do
  let e ← emitter
  match e.order.lookup key with
  | some t => return t
  | none => do
    let t : ToolState := ⟨"", "", "", false, false⟩
    modifyEmitter fun e => { e with order := e.order ++ [(key, t)] }
    return t

def tool (key id name args : String) (complete : Bool) : M V PUnit := do
  start env
  closeText env
  let t ← findTool key
  if t.closed then pure ()
  else do
    let t := { t with
      id := if id ≠ "" then id else t.id
      name := if name ≠ "" then name else t.name }
    setTool key t
    match if complete then newArguments t.args args else .ok args with
    | .error e => throw e
    | .ok args => do
      setTool key { t with args := t.args ++ args, ready := complete }
      let e ← emitter
      emitReady env e.order

/-- The loop of `finish`: the tools that are not closed. -/
def emitRest : List (String × ToolState) → M V PUnit
  | [] => pure ()
  | (key, t) :: rest =>
    if t.closed then emitRest rest
    else do
      emitTool env key t
      emitRest rest

def finish (reason : String) : M V PUnit := do
  let e ← emitter
  if e.finished then pure ()
  else do
    start env
    closeText env
    let e ← emitter
    emitRest env e.order
    let e ← emitter
    send env (.messageDelta (stopReason reason (!e.order.isEmpty)) e.usage)
    modifyEmitter fun e => { e with finished := true }
    send env .messageStop

/-- The identifier of the upstream is taken before the message starts. -/
def takeID (id : String) : M V PUnit :=
  modifyEmitter fun e => if ¬ e.started ∧ id ≠ "" then { e with id := id } else e

def takeUsage (u? : Option (Object ν)) : M V PUnit :=
  match u? with
  | some u => modifyEmitter fun e => { e with usage := usage env u }
  | none => pure ()

/-! ## Chat streams -/

/-- The variables of `ChatStream`. -/
structure ChatVars where
  finished : Bool
  reason : String

/-- A tool call of a delta. -/
structure ToolCall where
  key : String
  id : String
  name : String
  args : String

def toolCall (index : ℤ) (id : String) (f : Object ν) : ToolCall :=
  ⟨toString index, id, (field f "name").asText, (field f "arguments").asText⟩

/-- The tool calls of a delta, with the function call of the old protocol as the last one. -/
def toolCalls (delta : Object ν) : List ToolCall :=
  ((field delta "tool_calls").asList.map fun value =>
    let call := value.asObject
    toolCall (number env (field call "index")) (field call "id").asText
      (field call "function").asObject) ++
  match (field delta "function_call").asObject? with
  | some f => [toolCall 0 "call_legacy" f]
  | none => []

/-- The first choice of a chunk. -/
def chatChoice (choice : Object ν) : M ChatVars PUnit := do
  let delta := (field choice "delta").asObject
  text env .thinking (field delta "reasoning_content").asText
  text env .text (field delta "content").asText
  text env .text (field delta "refusal").asText
  (toolCalls env delta).forM fun c => tool env c.key c.id c.name c.args false
  let value := (field choice "finish_reason").asText
  modifyVars fun v => if value ≠ "" ∧ ¬ v.finished then ⟨true, value⟩ else v

/-- The handler of `ChatStream`. -/
def chatHandle (_ : String) (data : List UInt8) : M ChatVars Bool := do
  if ofBytes data = "[DONE]" then do
    let s ← get
    if ¬ s.vars.finished then throw .chatWithoutReason
    else do
      finish env s.vars.reason
      return false
  else
    match unmarshalObject (env.unmarshal data) with
    | none => throw .chatJson
    | some chunk? => do
      let chunk := chunk?.getD []
      match (field chunk "error").asObject? with
      | some e => throw (.chatFailed (field e "message").asText)
      | none => do
        takeID (field chunk "id").asText
        takeUsage env (field chunk "usage").asObject?
        match (field chunk "choices").asList with
        | [] => return true
        | choice :: _ => do
          chatChoice env choice.asObject
          return true

/-- The end of `ChatStream`. -/
def chatEnd : M ChatVars PUnit := do
  let s ← get
  if s.emitter.finished then pure ()
  else if ¬ s.vars.finished then throw .chatTruncated
  else finish env s.vars.reason

def chatStream (u : Upstream) : M ChatVars PUnit := do
  readSSE (chatHandle env) .read u
  chatEnd env

/-! ## Responses streams -/

/-- The variables of `ResponsesStream`. -/
structure ResponsesVars where
  aliases : String → String
  textSeen : String → Bool
  reasoningText : String → String
  reasoningDone : String → Bool

def aliasFor (id index : String) (v : ResponsesVars) : String × ResponsesVars :=
  let set (aliases : String → String) (k key : String) : String → String :=
    fun k' => if k' = k then key else aliases k'
  if v.aliases id ≠ "" then (v.aliases id, v)
  else if v.aliases ("index:" ++ index) ≠ "" then
    let key := v.aliases ("index:" ++ index)
    (key, if id ≠ "" then { v with aliases := set v.aliases id key } else v)
  else
    let key := if id ≠ "" then id else "index:" ++ index
    let aliases := if id ≠ "" then set v.aliases id key else v.aliases
    (key, { v with aliases := set aliases ("index:" ++ index) key })

def keyFor (itemID : String) (outputIndex : ℤ) (item : Object ν) : M ResponsesVars String := do
  let id := if itemID ≠ "" then itemID else (field item "id").asText
  let s ← get
  let (key, vars) := aliasFor id (toString outputIndex) s.vars
  modifyVars fun _ => vars
  return key

/-- `keyFor` on the data of an event. -/
def keyOf (data item : Object ν) : M ResponsesVars String :=
  keyFor (field data "item_id").asText (number env (field data "output_index")) item

def contentKey (key : String) (index : ℤ) : String :=
  key ++ ":content:" ++ toString index

def setSeen (key : String) : M ResponsesVars PUnit :=
  modifyVars fun v => { v with textSeen := fun k => if k = key then true else v.textSeen k }

/-- The loop of `emitMessage` over the parts of a message, which asks for the key each time. -/
def emitParts (itemKey : M ResponsesVars String) : ℕ → List (Json String ν) → M ResponsesVars PUnit
  | _, [] => pure ()
  | i, part :: parts => do
    let key := contentKey (← itemKey) i
    if (← get).vars.textSeen key then emitParts itemKey (i + 1) parts
    else do
      let b := part.asObject
      let content :=
        if (field b "type").asText = "refusal" then field b "refusal" else field b "text"
      text env .text content.asText
      setSeen key
      emitParts itemKey (i + 1) parts

def emitMessage (itemKey : M ResponsesVars String) (item : Object ν) : M ResponsesVars PUnit :=
  emitParts env itemKey 0 (field item "content").asList

def setField (o : Object ν) (key : String) (v : Json String ν) : Object ν :=
  if has o key then o.map fun e => if e.1 = key then (key, v) else e else o ++ [(key, v)]

def emitReasoning (key : String) (item : Object ν) : M ResponsesVars PUnit := do
  let s ← get
  if s.vars.reasoningDone key then pure ()
  else do
    modifyVars fun v =>
      { v with reasoningDone := fun k => if k = key then true else v.reasoningDone k }
    let summary := s.vars.reasoningText key
    let item :=
      if (field item "summary").asList.isEmpty ∧ summary ≠ "" then
        setField item "summary"
          (.array [.object [("type", .text "summary_text"), ("text", .text summary)]])
      else item
    thinkingItem env item

/-- One item of the output of a terminal response. -/
def emitItem (i : ℕ) (item : Object ν) : M ResponsesVars PUnit := do
  let itemKey := keyFor "" i item
  let key ← itemKey
  let type := (field item "type").asText
  if type = "function_call" then
    tool env key (field item "call_id").asText (field item "name").asText
      (field item "arguments").asText true
  else if type = "reasoning" then emitReasoning env key item
  else if type = "message" then emitMessage env itemKey item
  else throw (.unsupportedItem type)

def emitItems : ℕ → List (Json String ν) → M ResponsesVars PUnit
  | _, [] => pure ()
  | i, item :: items => do
    emitItem env i item.asObject
    emitItems (i + 1) items

/-- A terminal response. -/
def complete (incomplete : Bool) (response : Object ν) : M ResponsesVars PUnit := do
  let status := (field response "status").asText
  if status = "failed" ∨ status = "cancelled" ∨ (field response "error").asObject?.isSome then
    throw .generationFailed
  else do
    emitItems env 0 (field response "output").asList
    modifyEmitter fun e => { e with usage := usage env (field response "usage").asObject }
    let reason := (field (field response "incomplete_details").asObject "reason").asText
    finish env (if incomplete then if reason = "" then "max_output_tokens" else reason else "")

/-- The handler of `ResponsesStream`, for an event with its name. -/
def responsesEvent (event : String) (value : Object ν) : M ResponsesVars Bool := do
  let response := (field value "response").asObject
  if event = "response.created" then do
    takeID (field response "id").asText
    start env
    return true
  else if event = "response.output_text.delta" ∨ event = "response.refusal.delta" then do
    let key ← keyOf env value []
    setSeen (contentKey key (number env (field value "content_index")))
    text env .text (field value "delta").asText
    return true
  else if event = "response.reasoning_summary_text.delta" ∨
      event = "response.reasoning_text.delta" then do
    let key ← keyOf env value []
    modifyVars fun v =>
      { v with reasoningText := fun k =>
          if k = key then v.reasoningText k ++ (field value "delta").asText else v.reasoningText k }
    return true
  else if event = "response.output_item.added" then do
    let item := (field value "item").asObject
    if (field item "type").asText = "function_call" then do
      let key ← keyOf env value item
      tool env key (field item "call_id").asText (field item "name").asText
        (field item "arguments").asText false
      return true
    else return true
  else if event = "response.function_call_arguments.delta" then do
    let key ← keyOf env value []
    tool env key (field value "call_id").asText (field value "name").asText
      (field value "delta").asText false
    return true
  else if event = "response.function_call_arguments.done" then do
    let key ← keyOf env value []
    let e ← emitter
    match e.order.lookup key with
    | some t =>
      if t.id ≠ "" ∧ t.name ≠ "" then do
        tool env key "" "" (field value "arguments").asText true
        return true
      else return true
    | none => return true
  else if event = "response.output_item.done" then do
    let item := (field value "item").asObject
    let key ← keyOf env value item
    let type := (field item "type").asText
    if type = "function_call" then do
      tool env key (field item "call_id").asText (field item "name").asText
        (field item "arguments").asText true
      return true
    else if type = "reasoning" then do
      emitReasoning env key item
      return true
    else if type = "message" then do
      emitMessage env (keyOf env value item) item
      return true
    else return true
  else if event = "response.failed" ∨ event = "response.cancelled" ∨ event = "error" then
    let e := (field value "error").asObject?.getD (field response "error").asObject
    throw (.responsesFailed (field e "message").asText)
  else if event = "response.completed" ∨ event = "response.incomplete" then do
    complete env (event = "response.incomplete") response
    return false
  else if event = "response.output_text.done" then do
    let key := contentKey (← keyOf env value []) (number env (field value "content_index"))
    if ¬ (← get).vars.textSeen key then do
      setSeen key
      text env .text (field value "text").asText
      return true
    else return true
  else return true

/-- The handler of `ResponsesStream`. -/
def responsesHandle (event : String) (data : List UInt8) : M ResponsesVars Bool := do
  if ofBytes data = "[DONE]" then return false
  else
    match unmarshalObject (env.unmarshal data) with
    | none => throw .responsesJson
    | some value? =>
      let value := value?.getD []
      responsesEvent env (if event = "" then (field value "type").asText else event) value

/-- The end of `ResponsesStream`. -/
def responsesEnd : M ResponsesVars PUnit := do
  let e ← emitter
  if ¬ e.finished then throw .responsesTruncated else pure ()

def responsesStream (u : Upstream) : M ResponsesVars PUnit := do
  readSSE (responsesHandle env) .read u
  responsesEnd

end Functions

end Yukino.AgentProxy.Claude
