import Loadr.Request.Prepare

/-!
# Answers to gRPC calls

What the gRPC handler makes of the answer to a call.  A message that cannot be decoded ends the call
with the status `Internal`, one that is skipped cannot.  The body of the response is the last
message as JSON, unless the request asks for no more than its checks.

What is used of the client library is `Client`.
-/

namespace Loadr.Grpc

open Request
open Loadr.Flow (DropMode)

/-! ## Messages -/

inductive Value
  | bool (v : Bool)
  | i32 (v : ℤ)
  | i64 (v : ℤ)
  | u32 (v : ℕ)
  | u64 (v : ℕ)
  | f32 (v : F64)
  | f64 (v : F64)
  | string (v : String)
  | bytes (v : List UInt8)
  | enumNumber (v : ℤ)

namespace Value

def eq : Value → Value → Bool
  | bool a, bool b => a = b
  | i32 a, i32 b | i64 a, i64 b | enumNumber a, enumNumber b => a = b
  | u32 a, u32 b | u64 a, u64 b => a = b
  | f32 a, f32 b | f64 a, f64 b => a.eq b
  | string a, string b => a = b
  | bytes a, bytes b => a = b
  | _, _ => false

def numericCode : Value → Option ℤ
  | i32 v | i64 v | enumNumber v => some v
  | u32 v => some v
  | u64 v => if v < 2 ^ 63 then some v else none
  | _ => none

end Value

/-- What the reflected type of a message gives for a message. -/
structure DynamicMessage where
  encodedLen : ℕ
  hasField : String → Bool
  getField : String → Value
  toValue : Option Json

structure FieldDescriptor where
  name : String
  supportsPresence : Bool

structure ResolvedProtobufFieldCheck where
  id : ℕ
  field : FieldDescriptor
  expected : Option Value
  exists_ : Bool

/-- How texts and values are written in details. -/
structure Formats where
  text : String → String
  value : Value → String

/-- As many characters as there are in so many bytes. -/
def takeBytes : ℕ → List Char → List Char
  | _, [] => []
  | n, c :: cs => if c.utf8Size ≤ n then c :: takeBytes (n - c.utf8Size) cs else []

def Formats.brief (formats : Formats) : Value → String
  | .string s =>
    if 64 < s.utf8ByteSize then
      formats.text (String.ofList (takeBytes 64 s.toList)) ++ "… (" ++ toString s.utf8ByteSize ++
        " bytes)"
    else formats.value (.string s)
  | .bytes b =>
    if 64 < b.length then "<" ++ toString b.length ++ " bytes>" else formats.value (.bytes b)
  | other => formats.value other

def evaluateProtobufCheck (formats : Formats) (message : DynamicMessage)
    (check : ResolvedProtobufFieldCheck) : GrpcProtobufFieldOutcome :=
  let name := check.field.name
  if check.field.supportsPresence && !message.hasField name then
    { id := check.id
      pass := !check.exists_
      detail := if check.exists_ then some ("protobuf field `" ++ name ++ "` is absent") else none
      actualCode := none
      missing := true }
  else
    let actual := message.getField name
    if !check.exists_ then
      { id := check.id
        pass := false
        detail := some ("protobuf field `" ++ name ++ "` is present with value " ++
          formats.brief actual)
        actualCode := actual.numericCode
        missing := false }
    else
      let failed := check.expected.filter fun expected => !actual.eq expected
      { id := check.id
        pass := failed.isNone
        detail := failed.map fun expected => "protobuf field `" ++ name ++ "` expected " ++
          formats.brief expected ++ ", got " ++ formats.brief actual
        actualCode := actual.numericCode
        missing := false }

/-! ## Decoding -/

inductive Code
  | ok
  | cancelled
  | unknown
  | invalidArgument
  | deadlineExceeded
  | notFound
  | alreadyExists
  | permissionDenied
  | resourceExhausted
  | failedPrecondition
  | aborted
  | outOfRange
  | unimplemented
  | internal
  | unavailable
  | dataLoss
  | unauthenticated
deriving DecidableEq

namespace Code

def toInt : Code → ℤ
  | ok => 0
  | cancelled => 1
  | unknown => 2
  | invalidArgument => 3
  | deadlineExceeded => 4
  | notFound => 5
  | alreadyExists => 6
  | permissionDenied => 7
  | resourceExhausted => 8
  | failedPrecondition => 9
  | aborted => 10
  | outOfRange => 11
  | unimplemented => 12
  | internal => 13
  | unavailable => 14
  | dataLoss => 15
  | unauthenticated => 16

def name : Code → String
  | ok => "Ok"
  | cancelled => "Cancelled"
  | unknown => "Unknown"
  | invalidArgument => "InvalidArgument"
  | deadlineExceeded => "DeadlineExceeded"
  | notFound => "NotFound"
  | alreadyExists => "AlreadyExists"
  | permissionDenied => "PermissionDenied"
  | resourceExhausted => "ResourceExhausted"
  | failedPrecondition => "FailedPrecondition"
  | aborted => "Aborted"
  | outOfRange => "OutOfRange"
  | unimplemented => "Unimplemented"
  | internal => "Internal"
  | unavailable => "Unavailable"
  | dataLoss => "DataLoss"
  | unauthenticated => "Unauthenticated"

end Code

structure Status where
  code : Code
  message : String

/-- A message as it arrives, with what decoding it gives. -/
structure Frame where
  encodedLen : ℕ
  decoded : Except String DynamicMessage

structure Reply where
  frames : List Frame
  trailer : Option Status := none

inductive Inbound
  | message (message : DynamicMessage)
  | skipped (encodedLen : ℕ)

def Inbound.length : Inbound → ℕ
  | message m => m.encodedLen
  | skipped encodedLen => encodedLen

def decode (discard : Bool) (frame : Frame) : Except Status Inbound :=
  if discard then .ok (.skipped frame.encodedLen)
  else match frame.decoded with
    | .ok message => .ok (.message message)
    | .error e => .error ⟨.internal, "failed to decode message: " ++ e⟩

def collectStream (stream : List (Except Status Inbound)) : Except Status (List Inbound) :=
  stream.mapM id

/-- What is used of the client library. -/
structure Client where
  /-- What `message` returns time after time, for `server_streaming` and `streaming`. -/
  streaming : (Frame → Except Status Inbound) → Reply → List (Except Status Inbound)
  /-- `unary` and `client_streaming`. -/
  unary : (Frame → Except Status Inbound) → Reply → Except Status Inbound
  /-- Messages come in order up to the first error, and then the status of the trailers. -/
  collect_streaming : ∀ decode reply, collectStream (streaming decode reply) = do
    let messages ← reply.frames.mapM decode
    match reply.trailer with
    | none => return messages
    | some status => throw status
  /-- A call that has one message reads on to the trailers. -/
  unary_eq : ∀ decode reply, unary decode reply = do
    match ← collectStream (streaming decode reply) with
    | [] => throw ⟨.internal, "Missing response message."⟩
    | message :: _ => return message

def invoke (client : Client) (serverStreaming discard : Bool) (reply : Reply) :
    Except Status (List Inbound) :=
  if serverStreaming then collectStream (client.streaming (decode discard) reply)
  else do return [← client.unary (decode discard) reply]

/-! ## Responses -/

structure GrpcMethod where
  serverStreaming : Bool
  /-- Look up the fields of checks in the descriptor of the answer. -/
  resolve : List GrpcProtobufFieldCheck → Except String (List ResolvedProtobufFieldCheck)

inductive Exchange
  /-- The call is not made, or there is no answer in time. -/
  | unanswered (response : Except String ProtocolResponse)
  | answered (bytesSent : ℕ) (elapsedMs : F64) (reply : Reply)

section

variable (lib : Library) (formats : Formats) (client : Client)

def jsonBody (message : DynamicMessage) : List UInt8 := lib.toVec (message.toValue.getD .null)

def protobufOutcomes (checks : List ResolvedProtobufFieldCheck) (messages : List Inbound) :
    List GrpcProtobufFieldOutcome :=
  match messages.getLast? with
  | some (.message m) => checks.map (evaluateProtobufCheck formats m)
  | _ => []

def responseBody (protobufOnly : Bool) (messages : List Inbound) : List UInt8 :=
  if protobufOnly then []
  else match messages.getLast? with
    | some (.message m) => jsonBody lib m
    | _ => []

def respond (url : String) (protobufOnly : Bool) (checks : List ResolvedProtobufFieldCheck)
    (bytesSent : ℕ) (elapsedMs : F64) : Except Status (List Inbound) → ProtocolResponse
  | .ok messages => {
      status := 0
      statusText := "OK"
      body := responseBody lib protobufOnly messages
      durationMs := elapsedMs
      bytesSent
      bytesReceived := (messages.map fun m => m.length + 5).sum
      protocolVersion := "grpc"
      url
      messageCount := some messages.length
      grpcProtobufOutcomes := protobufOutcomes formats checks messages }
  | .error status => {
      status := status.code.toInt
      statusText := status.code.name ++ ": " ++ status.message
      durationMs := elapsedMs
      bytesSent
      protocolVersion := "grpc"
      url }

def execute (method : GrpcMethod) (request : PreparedRequest) (exchange : Exchange) :
    Except String ProtocolResponse :=
  match request.options.grpc with
  | none => .error "invalid request: grpc request requires `grpc:` options"
  | some grpc => match exchange with
    | .unanswered response => response
    | .answered bytesSent elapsedMs reply => do
      let requested := grpc.protobufChecks.getD []
      let checks ← if requested.isEmpty then pure [] else method.resolve requested
      let discard := grpc.discardResponseBody && requested.isEmpty
      return respond lib formats request.url grpc.protobufOnlyResponse checks bytesSent elapsedMs
        (invoke client method.serverStreaming discard reply)

/-- The response as it is handed on, if the request or the response may be dropped on purpose. -/
def delivered (dropped : Option DropMode) (request : PreparedRequest)
    (response : Except String ProtocolResponse) : ProtocolResponse :=
  match dropped with
  | some .beforeSend =>
    { error := some "fault injected: request dropped before send", url := request.url }
  | mode =>
    let response := match response with
      | .ok response => response
      | .error e => { error := some e, url := request.url }
    match mode with
    | none => response
    | some _ => { response with error := some "fault injected: response dropped" }

end

/-! ## What decoding changes -/

def Reply.decodes (reply : Reply) : Bool := reply.frames.all fun frame => frame.decoded.isOk

/-- The request with every message decoded and the last one written as JSON. -/
def decoded (request : PreparedRequest) : PreparedRequest :=
  { request with options := { request.options with
      grpc := request.options.grpc.map fun grpc =>
        { grpc with discardResponseBody := false, protobufOnlyResponse := false } } }

theorem mapM_decode_skip (frames : List Frame) :
    frames.mapM (decode true) = .ok (frames.map fun frame => .skipped frame.encodedLen) := by
  induction frames with
  | nil => rfl
  | cons frame frames ih => rw [List.mapM_cons, ih]; rfl

/-- Decoding goes through if every message can be decoded, and ends with `Internal` otherwise. -/
theorem mapM_decode_cases (frames : List Frame) :
    (frames.all (·.decoded.isOk) = true ∧ ∃ messages : List DynamicMessage,
      frames.mapM (decode false) = .ok (messages.map Inbound.message) ∧
        messages.isEmpty = frames.isEmpty) ∨
    (frames.all (·.decoded.isOk) = false ∧ ∃ e, frames.mapM (decode false) =
      .error ⟨.internal, "failed to decode message: " ++ e⟩) := by
  induction frames with
  | nil => exact .inl ⟨rfl, [], rfl, rfl⟩
  | cons frame frames ih =>
    rw [List.mapM_cons, List.all_cons]
    cases hframe : frame.decoded with
    | error e =>
      have hdecode : decode false frame =
          .error ⟨.internal, "failed to decode message: " ++ e⟩ := by simp [decode, hframe]
      exact .inr ⟨rfl, e, by rw [hdecode]; rfl⟩
    | ok m =>
      have hdecode : decode false frame = .ok (.message m) := by simp [decode, hframe]
      obtain ⟨hall, messages, hmessages, -⟩ | ⟨hall, e, hmessages⟩ := ih
      · exact .inl ⟨hall, m :: messages, by rw [hdecode, hmessages]; rfl, rfl⟩
      · exact .inr ⟨hall, e, by rw [hdecode, hmessages]; rfl⟩

theorem invoke_eq {discard : Bool} {reply : Reply} {messages : List Inbound} (client : Client)
    (serverStreaming : Bool) : reply.frames.mapM (decode discard) = .ok messages →
    invoke client serverStreaming discard reply =
      match reply.trailer, serverStreaming, messages with
      | some status, _, _ => .error status
      | none, true, messages => .ok messages
      | none, false, [] => .error ⟨.internal, "Missing response message."⟩
      | none, false, message :: _ => .ok [message] := by
  intro h
  unfold invoke
  rw [client.unary_eq, client.collect_streaming, h]
  cases reply.trailer with
  | some status => cases serverStreaming <;> rfl
  | none =>
    cases serverStreaming with
    | true => rfl
    | false => cases messages <;> rfl

theorem invoke_error {discard : Bool} {reply : Reply} {status : Status}
    (h : reply.frames.mapM (decode discard) = .error status) (client : Client)
    (serverStreaming : Bool) : invoke client serverStreaming discard reply = .error status := by
  unfold invoke
  rw [client.unary_eq, client.collect_streaming, h]
  cases serverStreaming <;> rfl

/-! ## Responses with and without decoding -/

section Responses

variable (lib : Library) (formats : Formats) (client : Client) (url : String)
  (checks : List ResolvedProtobufFieldCheck) (bytesSent : ℕ) (elapsedMs : F64)

@[simp]
theorem durationMs_respond (protobufOnly : Bool) (result : Except Status (List Inbound)) :
    (respond lib formats url protobufOnly checks bytesSent elapsedMs result).durationMs =
      elapsedMs := by
  cases result <;> rfl

@[simp]
theorem headers_respond (protobufOnly : Bool) (result : Except Status (List Inbound)) :
    (respond lib formats url protobufOnly checks bytesSent elapsedMs result).headers = [] := by
  cases result <;> rfl

@[simp]
theorem error_respond (protobufOnly : Bool) (result : Except Status (List Inbound)) :
    (respond lib formats url protobufOnly checks bytesSent elapsedMs result).error = none := by
  cases result <;> rfl

theorem respond_protobufOnly (result : Except Status (List Inbound)) :
    respond lib formats url true checks bytesSent elapsedMs result =
      { respond lib formats url false checks bytesSent elapsedMs result with body := [] } := by
  cases result <;> rfl

/-- The server gives a message and all goes well. -/
def Reply.delivers (reply : Reply) : Bool :=
  reply.decodes && reply.trailer.isNone && !reply.frames.isEmpty

theorem body_respond (serverStreaming : Bool) (reply : Reply) :
    (reply.delivers = true ∧ ∃ m, (respond lib formats url false checks bytesSent elapsedMs
      (invoke client serverStreaming false reply)).body = jsonBody lib m) ∨
    (reply.delivers = false ∧ (respond lib formats url false checks bytesSent elapsedMs
      (invoke client serverStreaming false reply)).body = []) := by
  unfold Reply.delivers Reply.decodes
  obtain ⟨hall, messages, hmessages, hempty⟩ | ⟨hall, e, hmessages⟩ :=
    mapM_decode_cases reply.frames
  · rw [invoke_eq client serverStreaming hmessages, hall, ← hempty]
    cases reply.trailer with
    | some status => exact .inr ⟨rfl, rfl⟩
    | none =>
      cases messages with
      | nil => cases serverStreaming <;> exact .inr ⟨rfl, rfl⟩
      | cons m messages =>
        refine .inl ⟨rfl, ?_⟩
        cases serverStreaming with
        | true => exact ⟨messages.getLast?.getD m, by simp [respond, responseBody, List.getLast?_cons]⟩
        | false => exact ⟨m, rfl⟩
  · rw [invoke_error hmessages, hall]
    exact .inr ⟨rfl, rfl⟩

/-- A message that cannot be decoded is not noticed unless the trailers have the same code. -/
def Reply.hidesFailure (reply : Reply) : Bool :=
  !reply.decodes && reply.trailer.all (·.code ≠ .internal)

theorem status_respond {discard : Bool} {reply : Reply} {messages : List Inbound}
    (h : reply.frames.mapM (decode discard) = .ok messages)
    (hempty : messages.isEmpty = reply.frames.isEmpty) (serverStreaming protobufOnly : Bool) :
    (respond lib formats url protobufOnly checks bytesSent elapsedMs
      (invoke client serverStreaming discard reply)).status = match reply.trailer with
        | some status => status.code.toInt
        | none => if serverStreaming || !reply.frames.isEmpty then 0 else 13 := by
  rw [invoke_eq client serverStreaming h, ← hempty]
  cases reply.trailer with
  | some status => rfl
  | none =>
    cases serverStreaming with
    | true => rfl
    | false => cases messages <;> rfl

theorem status_skip_eq_iff (serverStreaming protobufOnly : Bool) (reply : Reply) :
    (respond lib formats url protobufOnly checks bytesSent elapsedMs
      (invoke client serverStreaming true reply)).status =
    (respond lib formats url protobufOnly checks bytesSent elapsedMs
      (invoke client serverStreaming false reply)).status ↔ reply.hidesFailure = false := by
  rw [status_respond _ _ _ _ _ _ _ (mapM_decode_skip _) List.isEmpty_map]
  unfold Reply.hidesFailure Reply.decodes
  obtain ⟨hall, messages, hmessages, hempty⟩ | ⟨hall, e, hmessages⟩ :=
    mapM_decode_cases reply.frames
  · rw [status_respond _ _ _ _ _ _ _ hmessages (List.isEmpty_map.trans hempty), hall]
    simp
  · have hframes : reply.frames.isEmpty = false := by
      cases hnil : reply.frames with
      | nil => simp [hnil] at hall
      | cons frame frames => rfl
    rw [invoke_error hmessages, hall, hframes]
    cases reply.trailer with
    | some status => cases hcode : status.code <;> simp [respond, hcode, Code.toInt]
    | none => simp [respond, Code.toInt]

end Responses

namespace Exchange

def delivers (method : GrpcMethod) (checks : List GrpcProtobufFieldCheck) : Exchange → Bool
  | unanswered _ => false
  | answered _ _ reply => (method.resolve checks).isOk && reply.delivers

/-- A message cannot be decoded, and the trailers do not say so. -/
def hidesFailure : Exchange → Bool
  | unanswered _ => false
  | answered _ _ reply => reply.hidesFailure

end Exchange

end Loadr.Grpc
