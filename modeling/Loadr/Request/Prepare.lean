import Loadr.Request.Conditions

/-!
# Preparing a request

`prepare` renders a compiled request: the URL, the headers and the body, then the options of the
protocol, then the name.  Between two messages of a streaming gRPC call the rows of plugins are
forgotten.

Durations are in nanoseconds.  The paths of proto files are left out.  Objects list their fields in
the order of their names.
-/

namespace Loadr.Request

open Loadr.Flow

/-! ## Compiled requests -/

structure HttpDefaults where
  baseUrl : Option String := none
  headers : List (String × String) := []
  timeout : ℕ := 30000000000
  followRedirects : Bool := true
  maxRedirects : ℕ := 10

structure CompiledPart where
  name : String
  value : Option Template
  bytes : Option (List UInt8)
  filename : Option String
  contentType : Option String

inductive CompiledBody
  | none
  | text (template : Template)
  | json (value : Json)
  | bytes (bytes : List UInt8)
  | form (fields : List (String × Template))
  | multipart (parts : List CompiledPart)

structure GraphqlOptions where
  query : String
  vars : Option Json
  operationName : Option String

inductive WsMessage
  | text (text : String)
  | detailed (text binaryBase64 : Option String) (delay : Option ℕ)

structure WsOptions where
  subprotocols : List String := []
  send : List WsMessage := []
  receiveCount : Option ℕ := none
  receiveUntil : Option String := none
  sessionDuration : Option ℕ := none

inductive CompiledGrpcValue
  | literal (value : Json)
  | dynamic (value : CompiledJson)

inductive CompiledGrpcValues
  | literal (values : List Json)
  | dynamic (values : List CompiledJson) (times : ℕ)

inductive GrpcTransport
  | channel
  | raw
deriving DecidableEq

structure CompiledGrpc where
  reflection : Bool := false
  service : String
  method : String
  message : Option CompiledGrpcValue := none
  messages : CompiledGrpcValues := .literal []
  metadata : List (String × Template) := []
  channelPoolSize : Option ℕ := none
  transport : GrpcTransport := .channel

structure SocketOptions where
  sendText : Option String := none
  sendHex : Option String := none
  readBytes : Option ℕ := none
  readUntilClose : Bool := false
  readTimeout : Option ℕ := none

structure SseOptions where
  events : Option ℕ := none
  until_ : Option String := none
  duration : Option ℕ := none

structure SqlOptions where
  query : String
  params : List String := []

structure CompiledRequest where
  name : Option Template := none
  displayName : String
  protocol : String
  method : String
  url : Template
  headers : List (String × Template) := []
  params : List (String × Template) := []
  body : CompiledBody := .none
  timeout : Option ℕ := none
  followRedirects : Option Bool := none
  extract : List CompiledExtractor := []
  assert : List CompiledCondition := []
  checks : List CompiledCondition := []
  grpcProtobufChecks : Option (List GrpcProtobufFieldCheck) := none
  readsResponseBody : Bool := false
  ws : Option WsOptions := none
  grpc : Option CompiledGrpc := none
  graphql : Option GraphqlOptions := none
  socket : Option SocketOptions := none
  sse : Option SseOptions := none
  sql : Option SqlOptions := none
  plugin : Option Json := none

/-! ## Prepared requests -/

structure WsFrame where
  payload : List UInt8
  binary : Bool
  delay : Option ℕ

structure WsRequest where
  subprotocols : List String
  send : List WsFrame
  receiveCount : Option ℕ
  receiveUntil : Option String
  sessionDuration : Option ℕ

structure GrpcRequest where
  reflection : Bool
  service : String
  method : String
  message : Option Json
  messages : List Json
  messageLiteral : Bool
  metadata : List (String × String)
  channelPoolSize : Option ℕ
  transport : GrpcTransport
  discardResponseBody : Bool := false
  protobufOnlyResponse : Bool := false
  protobufChecks : Option (List GrpcProtobufFieldCheck) := none

structure SocketRequest where
  payload : List UInt8
  readBytes : Option ℕ
  readUntilClose : Bool
  readTimeout : Option ℕ

structure RequestOptions where
  ws : Option WsRequest := none
  grpc : Option GrpcRequest := none
  socket : Option SocketRequest := none
  plugin : Option Json := none

structure PreparedRequest where
  name : String
  protocol : String
  method : String
  url : String
  headers : List (String × String)
  body : List UInt8
  timeout : ℕ
  followRedirects : Bool
  maxRedirects : ℕ
  options : RequestOptions

/-! ## URL and headers -/

def renderOption {α β : Type} (render : α → Render β) : Option α → Render (Option β)
  | none => return none
  | some a => do
    let b ← render a
    return some b

section

variable (w : World) (http : HttpDefaults) (req : CompiledRequest)

def prepareUrl : Render String := do
  let url ← renderTemplate w .url req.url
  if hasText url "://" then return url
  else match http.baseUrl with
    | none => return url
    | some base => do
      let base ← renderStr w .base base
      return joinBase base url

def renderPairs (f : Field) (pairs : List (String × Template)) : Render (List (String × String)) :=
  pairs.mapM fun pair => do
    let value ← renderTemplate w f pair.2
    return (pair.1, value)

def setHeader (headers : List (String × String)) (header : String × String) :
    List (String × String) :=
  headers.filter (fun h => !eqIgnoreAsciiCase h.1 header.1) ++ [header]

def prepareHeaders : Render (List (String × String)) := do
  let defaults ← http.headers.mapM fun header => do
    let value ← renderStr w .headers header.2
    return (header.1, value)
  let headers ← renderPairs w .headers req.headers
  return (defaults ++ headers).foldl setHeader []

/-! ## Body -/

def graphqlPayload (query : String) (vars : Option Json) (operationName : Option String) : Json :=
  .object ((operationName.map fun op => ("operationName", .string op)).toList ++
    [("query", .string query)] ++ (vars.map fun v => ("variables", v)).toList)

def partHead (boundary : String) (part : CompiledPart) : List UInt8 :=
  utf8 ("--" ++ boundary ++ "\r\n" ++ "Content-Disposition: form-data; name=\"" ++ part.name ++ "\"" ++
    (part.filename.map fun fname => "; filename=\"" ++ fname ++ "\"").getD "" ++ "\r\n" ++
    (part.contentType.map fun ct => "Content-Type: " ++ ct ++ "\r\n").getD "" ++ "\r\n")

def renderPart (part : CompiledPart) : Render (List UInt8) :=
  match part.value with
  | some t => do
    let text ← renderTemplate w .body t
    return utf8 text
  | none => return part.bytes.getD []

def renderMultipart (boundary : String) (parts : List CompiledPart) : Render (List UInt8) := do
  let rendered ← parts.mapM fun part => do
    let content ← renderPart w part
    return partHead boundary part ++ content ++ utf8 "\r\n"
  return rendered.flatten ++ utf8 ("--" ++ boundary ++ "--\r\n")

def prepareBody : Render (List UInt8 × Option String) :=
  match req.graphql with
  | some gql => do
    let vars ← renderOption (renderJson w .body) gql.vars
    return (w.lib.toVec (graphqlPayload gql.query vars gql.operationName), some "application/json")
  | none => match req.body with
    | .none => return ([], none)
    | .text t => do
      let text ← renderTemplate w .body t
      return (utf8 text, none)
    | .json value => do
      let value ← renderJson w .body value
      return (w.lib.toVec value, some "application/json")
    | .bytes bytes => return (bytes, none)
    | .form fields => do
      let fields ← renderPairs w .body fields
      return (utf8 (joinPairs (fields.map paramPair)), some "application/x-www-form-urlencoded")
    | .multipart parts => do
      let boundary := "loadrboundary" ++ w.uuid
      let body ← renderMultipart w boundary parts
      return (body, some ("multipart/form-data; boundary=" ++ boundary))

def withContentType (headers : List (String × String)) (contentType : Option String) :
    List (String × String) :=
  match contentType with
  | none => headers
  | some ct =>
    if headers.any fun h => eqIgnoreAsciiCase h.1 "content-type" then headers
    else headers ++ [("Content-Type", ct)]

/-! ## Options -/

def renderWsMessage : WsMessage → Render WsFrame
  | .text text => do
    let text ← renderStr w .ws text
    return ⟨utf8 text, false, none⟩
  | .detailed (some text) _ delay => do
    let text ← renderStr w .ws text
    return ⟨utf8 text, false, delay⟩
  | .detailed none (some b64) delay =>
    match w.lib.decodeBase64 (String.ofList (trim b64.toList)) with
    | .ok bytes => return ⟨bytes, true, delay⟩
    | .error e => throw (.other ("invalid binary_base64: " ++ e))
  | .detailed none none delay => return ⟨[], false, delay⟩

def prepareWs : Render (Option WsRequest) :=
  match req.ws with
  | none => return none
  | some ws => do
    let frames ← ws.send.mapM (renderWsMessage w)
    return some ⟨ws.subprotocols, frames, ws.receiveCount, ws.receiveUntil, ws.sessionDuration⟩

def beginMessage : Render Unit := ExceptT.mk fun s => (.ok (), s.beginMessage w)

/-- The messages from the `k`-th on, each but the very first with rows of its own. -/
def renderFrames : ℕ → List CompiledJson → Render (List Json)
  | _, [] => return []
  | k, value :: values => do
    if k ≠ 0 then beginMessage w
    let frame ← value.render w.lib.fromStr (renderTemplate w (.frame k))
    let frames ← renderFrames (k + 1) values
    return frame :: frames

def renderMessages : CompiledGrpcValues → Render (List Json)
  | .literal values => return values
  | .dynamic values times => renderFrames w 0 (List.replicate times values).flatten

def CompiledGrpcValue.isLiteral : CompiledGrpcValue → Bool
  | .literal _ => true
  | .dynamic _ => false

def CompiledGrpcValue.render : CompiledGrpcValue → Render Json
  | .literal value => return value
  | .dynamic value => value.render w.lib.fromStr (renderTemplate w .message)

def CompiledGrpcValues.isEmpty : CompiledGrpcValues → Bool
  | .literal values => values.isEmpty
  | .dynamic values _ => values.isEmpty

def CompiledGrpcValues.isLiteral : CompiledGrpcValues → Bool
  | .literal _ => true
  | .dynamic _ _ => false

/-- The rest of a call, after its messages. -/
def CompiledGrpc.render (grpc : CompiledGrpc) (messages : List Json) : Render GrpcRequest := do
  let metadata ← renderPairs w .metadata grpc.metadata
  let message ← renderOption (CompiledGrpcValue.render w) grpc.message
  return {
    reflection := grpc.reflection
    service := grpc.service
    method := grpc.method
    message
    messages
    messageLiteral :=
      if grpc.messages.isEmpty then grpc.message.any CompiledGrpcValue.isLiteral
      else grpc.messages.isLiteral
    metadata
    channelPoolSize := grpc.channelPoolSize
    transport := grpc.transport }

end

/-- A source wants to see the results of the requests that used its rows. -/
def reportsResults (data : DataFeeds) : Bool :=
  data.feeds.any fun
    | (_, .plugin reports) => reports
    | (_, .memory _) => false

section

variable (w : World) (http : HttpDefaults) (req : CompiledRequest)

def hasAfterRequest : Bool := w.script.any fun engine => "afterRequest" ∈ engine.functions

def discardResponseBody : Bool :=
  !req.readsResponseBody && !req.grpcProtobufChecks.isSome && !hasAfterRequest w &&
    !reportsResults w.data

def protobufOnlyResponse : Bool :=
  req.grpcProtobufChecks.isSome && !req.readsResponseBody && !hasAfterRequest w

def prepareGrpc : Render (Option GrpcRequest) :=
  match req.grpc with
  | none => return none
  | some grpc => do
    let messages ← renderMessages w grpc.messages
    let rendered ← grpc.render w messages
    return some { rendered with
      discardResponseBody := discardResponseBody w req
      protobufOnlyResponse := protobufOnlyResponse w req
      protobufChecks := req.grpcProtobufChecks }

def toDigit (c : Char) : Option ℕ :=
  if '0' ≤ c ∧ c ≤ '9' then some (c.toNat - 48)
  else if 'a' ≤ c ∧ c ≤ 'f' then some (c.toNat - 87)
  else if 'A' ≤ c ∧ c ≤ 'F' then some (c.toNat - 55)
  else none

/-- Pairs of digits; a digit that is left over is dropped. -/
def decodeHex : List Char → Option (List UInt8)
  | hi :: lo :: rest => do
    let hi ← toDigit hi
    let lo ← toDigit lo
    let bytes ← decodeHex rest
    return UInt8.ofNat (hi * 16 + lo) :: bytes
  | _ => some []

def socketPayload (socket : SocketOptions) : Render (List UInt8) :=
  match socket.sendText with
  | some text => do
    let text ← renderStr w .socket text
    return utf8 text
  | none => match socket.sendHex with
    | some hex => match decodeHex (hex.toList.filter (!isWhiteSpace ·)) with
      | some bytes => return bytes
      | none => throw (.other "invalid hex payload")
    | none => return []

def prepareSocket : Render (Option SocketRequest) :=
  match req.socket with
  | none => return none
  | some socket => do
    let payload ← socketPayload w socket
    return some ⟨payload, socket.readBytes, socket.readUntilClose, socket.readTimeout⟩

def sseOptions (sse : SseOptions) : List (String × Json) :=
  (sse.duration.map fun d => ("duration", Json.string (toString (d / 1000000) ++ "ms"))).toList ++
    (sse.events.map fun n => ("events", Json.number n)).toList ++
    (sse.until_.map fun u => ("until", Json.string u)).toList

/-- The options in the channel of the plugins: a query, stop conditions, or free-form options. -/
def preparePlugin : Render (Option Json) :=
  match req.sql with
  | some sql => do
    let query ← renderStr w .sql sql.query
    let params ← sql.params.mapM fun p => do
      let p ← renderStr w .sql p
      return Json.string p
    return some (.object [("params", .array params), ("query", .string query)])
  | none => match req.sse.map sseOptions with
    | some (option :: options) => return some (.object (option :: options))
    | _ => renderOption (renderJson w .plugin) req.plugin

def prepareName : Render String :=
  match req.name with
  | some t => renderTemplate w .name t
  | none => return req.displayName

/-! ## Requests -/

def prepare : Render PreparedRequest := do
  let url ← prepareUrl w http req
  let params ← renderPairs w .params req.params
  let headers ← prepareHeaders w http req
  let (body, contentType) ← prepareBody w req
  let ws ← prepareWs w req
  let grpc ← prepareGrpc w req
  let socket ← prepareSocket w req
  let plugin ← preparePlugin w req
  let name ← prepareName w req
  return {
    name
    protocol := req.protocol
    method := req.method
    url := appendParams url (params.map paramPair)
    headers := withContentType headers contentType
    body
    timeout := req.timeout.getD http.timeout
    followRedirects := req.followRedirects.getD http.followRedirects
    maxRedirects := http.maxRedirects
    options := ⟨ws, grpc, socket, plugin⟩ }

end

section

open Fallible

variable {w : World} {http : HttpDefaults} {req : CompiledRequest} {s t : Session}

theorem gives_prepare {prepared : PreparedRequest} (h : Gives (prepare w http req) s prepared t) :
    ∃ url params headers body contentType ws grpc socket plugin name u₁ u₂ u₃ u₄ u₅ u₆ u₇ u₈,
      Gives (prepareUrl w http req) s url u₁ ∧
      Gives (renderPairs w .params req.params) u₁ params u₂ ∧
      Gives (prepareHeaders w http req) u₂ headers u₃ ∧
      Gives (prepareBody w req) u₃ (body, contentType) u₄ ∧
      Gives (prepareWs w req) u₄ ws u₅ ∧
      Gives (prepareGrpc w req) u₅ grpc u₆ ∧
      Gives (prepareSocket w req) u₆ socket u₇ ∧
      Gives (preparePlugin w req) u₇ plugin u₈ ∧
      Gives (prepareName w req) u₈ name t ∧
      prepared.url = appendParams url (params.map paramPair) ∧
      prepared.options = ⟨ws, grpc, socket, plugin⟩ := by
  obtain ⟨url, u₁, hurl, h⟩ := gives_bind.1 h
  obtain ⟨params, u₂, hparams, h⟩ := gives_bind.1 h
  obtain ⟨headers, u₃, hheaders, h⟩ := gives_bind.1 h
  obtain ⟨⟨body, contentType⟩, u₄, hbody, h⟩ := gives_bind.1 h
  obtain ⟨ws, u₅, hws, h⟩ := gives_bind.1 h
  obtain ⟨grpc, u₆, hgrpc, h⟩ := gives_bind.1 h
  obtain ⟨socket, u₇, hsocket, h⟩ := gives_bind.1 h
  obtain ⟨plugin, u₈, hplugin, h⟩ := gives_bind.1 h
  obtain ⟨name, u₉, hname, h⟩ := gives_bind.1 h
  obtain ⟨rfl, rfl⟩ := gives_pure.1 h
  exact ⟨url, params, headers, body, contentType, ws, grpc, socket, plugin, name, u₁, u₂, u₃, u₄, u₅,
    u₆, u₇, u₈, hurl, hparams, hheaders, hbody, hws, hgrpc, hsocket, hplugin, hname, rfl, rfl⟩

/-- The URL of a prepared request is made from the rendered URL of the step, the rendered base URL
and the rendered parameters. -/
theorem url_of_prepare {prepared : PreparedRequest} (h : Gives (prepare w http req) s prepared t) :
    ∃ own u base params, Gives (renderTemplate w .url req.url) s own u ∧
      base.isSome = http.baseUrl.isSome ∧ prepared.url = requestUrl base own params := by
  obtain ⟨url, params, -, -, -, -, -, -, -, -, u₁, -, -, -, -, -, -, -, hurl, -, -, -, -, -, -, -, -,
    hprepared, -⟩ := gives_prepare h
  obtain ⟨own, u, hown, hrest⟩ := gives_bind.1 hurl
  rw [hprepared]
  split_ifs at hrest with habsolute
  · obtain ⟨rfl, -⟩ := gives_pure.1 hrest
    refine ⟨url, u, http.baseUrl, params, hown, rfl, ?_⟩
    cases http.baseUrl <;> simp [requestUrl, habsolute]
  · cases hb : http.baseUrl with rw [hb] at hrest
    | none =>
      obtain ⟨rfl, -⟩ := gives_pure.1 hrest
      exact ⟨url, u, none, params, hown, rfl, rfl⟩
    | some base =>
      obtain ⟨base', u', -, hjoin⟩ := gives_bind.1 hrest
      obtain ⟨rfl, -⟩ := gives_pure.1 hjoin
      exact ⟨own, u, some base', params, hown, rfl, by simp [requestUrl, habsolute]⟩

end

end Loadr.Request
