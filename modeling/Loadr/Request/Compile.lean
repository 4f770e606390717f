import Loadr.Request.Prepare

/-!
# Compiling a request

`compileRequest` makes a compiled request of a request step of the plan: templates are parsed, files
are read, conditions on message fields get their slots, and it is found out whether an extractor or
a condition reads the response body.

An extractor is given by what compiling it gives.
-/

namespace Loadr.Request

open Loadr.Flow

structure MultipartPart where
  name : String
  value : Option String := none
  file : Option String := none
  filename : Option String := none
  contentType : Option String := none

structure BodySpec where
  json : Option Json := none
  file : Option String := none
  form : Option (List (String × String)) := none
  multipart : Option (List MultipartPart) := none

inductive Body
  | text (text : String)
  | spec (spec : BodySpec)

structure GrpcOptions where
  reflection : Bool := false
  service : String
  method : String
  message : Option Json := none
  messages : List Json := []
  streamRepeat : Option ℕ := none
  metadata : List (String × String) := []
  channelPoolSize : Option ℕ := none
  transport : GrpcTransport := .channel

structure RequestStep where
  name : Option String := none
  protocol : Option String := none
  method : Option String := none
  url : String
  headers : List (String × String) := []
  params : List (String × String) := []
  body : Option Body := none
  timeout : Option ℕ := none
  followRedirects : Option Bool := none
  extract : List (Except String CompiledExtractor) := []
  assert : List Condition := []
  checks : List Condition := []
  ws : Option WsOptions := none
  grpc : Option GrpcOptions := none
  graphql : Option GraphqlOptions := none
  socket : Option SocketOptions := none
  sse : Option SseOptions := none
  sql : Option SqlOptions := none
  plugin : Option Json := none

/-- What compiling gets from outside: the files, the libraries, the URL schemes of plugins. -/
structure Surroundings where
  readFile : String → Except EngineError (List UInt8)
  fileName : String → Option String
  matchers : Matchers
  pluginScheme : String → Option String := fun _ => none

/-! ## The protocol -/

/-- The text before the first `://`, or all of it. -/
def urlScheme : List Char → List Char
  | ':' :: '/' :: '/' :: _ => []
  | c :: rest => c :: urlScheme rest
  | [] => []

def inferProtocol (pluginScheme : String → Option String) (explicit : Option String)
    (url : String) : String :=
  match explicit with
  | some p =>
    if p = "https" then "http"
    else if p = "websocket" ∨ p = "wss" then "ws"
    else if p = "sses" then "sse"
    else (pluginScheme (p.map Char.toLower)).getD p
  | none =>
    let scheme := String.ofList (urlScheme url.toList)
    if scheme = "http" ∨ scheme = "https" then "http"
    else if scheme = "ws" ∨ scheme = "wss" then "ws"
    else if scheme = "grpc" ∨ scheme = "grpcs" then "grpc"
    else if scheme = "sse" ∨ scheme = "sses" then "sse"
    else if scheme = "tcp" then "tcp"
    else if scheme = "udp" then "udp"
    else if scheme = "noop" then "noop"
    else (pluginScheme (scheme.map Char.toLower)).getD "http"

/-! ## Parts -/

def compilePairs (what : String) (pairs : List (String × String)) :
    Except EngineError (List (String × Template)) :=
  pairs.mapM fun pair => do
    let template ← parseTemplate pair.2 what
    return (pair.1, template)

def compileOption {α β : Type} (compile : α → Except EngineError β) :
    Option α → Except EngineError (Option β)
  | none => return none
  | some a => do
    let b ← compile a
    return some b

def compilePart (around : Surroundings) (p : MultipartPart) : Except EngineError CompiledPart := do
  let value ← compileOption (parseTemplate · "multipart value") p.value
  let bytes ← compileOption around.readFile p.file
  return ⟨p.name, value, bytes, p.filename.or (p.file.bind around.fileName), p.contentType⟩

def compileBody (around : Surroundings) : Option Body → Except EngineError CompiledBody
  | none => return .none
  | some (.text t) => do
    let template ← parseTemplate t "body"
    return .text template
  | some (.spec spec) =>
    match spec.json, spec.file, spec.form, spec.multipart with
    | some json, _, _, _ => return .json json
    | none, some file, _, _ => do
      let bytes ← around.readFile file
      return .bytes bytes
    | none, none, some form, _ => do
      let fields ← compilePairs "form value" form
      return .form fields
    | none, none, none, some parts => do
      let parts ← parts.mapM (compilePart around)
      return .multipart parts
    | none, none, none, none => return .none

def CompiledGrpcValue.compile (what : String) (value : Json) :
    Except EngineError CompiledGrpcValue := do
  match ← CompiledJson.compile what value with
  | .literal value => return .literal value
  | compiled => return .dynamic compiled

def CompiledGrpcValues.compile (what : String) (values : List Json) (times : ℕ) :
    Except EngineError CompiledGrpcValues := do
  let compiled ← values.mapM (CompiledJson.compile what)
  if compiled.all CompiledJson.isLiteral then
    return .literal (List.replicate times values).flatten
  else return .dynamic compiled times

def CompiledGrpc.compile (grpc : GrpcOptions) : Except EngineError CompiledGrpc := do
  let message ← compileOption (CompiledGrpcValue.compile "grpc message") grpc.message
  let messages ← CompiledGrpcValues.compile "grpc message" grpc.messages
    (grpc.streamRepeat.getD 1)
  let metadata ← grpc.metadata.mapM fun entry => do
    let template ← parseTemplate entry.2 ("grpc metadata `" ++ entry.1 ++ "`")
    return (entry.1, template)
  return {
    reflection := grpc.reflection
    service := grpc.service
    method := grpc.method
    message, messages, metadata
    channelPoolSize := grpc.channelPoolSize
    transport := grpc.transport }

/-! ## Requests -/

def CompiledBody.isNone : CompiledBody → Bool
  | .none => true
  | _ => false

def requestMethod (req : RequestStep) (body : CompiledBody) : String :=
  (req.method.getD
    (if req.graphql.isSome then "POST" else if body.isNone then "GET" else "POST")).map Char.toUpper

def readsResponseBody (extract : List CompiledExtractor) (assert checks : List CompiledCondition) :
    Bool :=
  !extract.isEmpty || assert.any CompiledCondition.readsBody ||
    checks.any CompiledCondition.readsBody

def compileRequest (around : Surroundings) (req : RequestStep) :
    Except EngineError CompiledRequest := do
  let body ← compileBody around req.body
  let grpc ← compileOption CompiledGrpc.compile req.grpc
  let extract ← req.extract.mapM fun e => e.mapError EngineError.config
  let assert ← req.assert.mapM fun c =>
    (CompiledCondition.compile around.matchers c).mapError EngineError.config
  let checks ← req.checks.mapM fun c =>
    (CompiledCondition.compile around.matchers c).mapError EngineError.config
  let (bound, protobufChecks) := CompiledCondition.bindAll 0 (assert ++ checks)
  let assert := bound.take assert.length
  let checks := bound.drop assert.length
  let name ← compileOption (parseTemplate · "request name") req.name
  let url ← parseTemplate req.url "url"
  let headers ← compilePairs "header" req.headers
  let params ← compilePairs "param" req.params
  return {
    name
    displayName := req.name.getD req.url
    protocol := inferProtocol around.pluginScheme req.protocol req.url
    method := requestMethod req body
    url, headers, params, body
    timeout := req.timeout
    followRedirects := req.followRedirects
    extract, assert, checks
    grpcProtobufChecks := if protobufChecks.isEmpty then none else some protobufChecks
    readsResponseBody := readsResponseBody extract assert checks
    ws := req.ws
    grpc
    graphql := req.graphql
    socket := req.socket
    sse := req.sse
    sql := req.sql
    plugin := req.plugin }

end Loadr.Request
