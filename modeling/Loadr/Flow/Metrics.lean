import Mathlib.Data.List.DropRight
import Loadr.Lib.F64

/-!
# Samples of the flow interpreter

JSON values, the response of a protocol handler, and the samples that a virtual user records: the
metric families of a request, with the tags they are recorded under.  The tags that a virtual user
adds to all of its samples are left out, and so are the kinds of the metrics.
-/

namespace Loadr

inductive Json
  | null
  | bool (value : Bool)
  | number (value : ℚ)
  | string (value : String)
  | array (items : List Json)
  | object (fields : List (String × Json))

namespace Json

def isTruthy : Json → Bool
  | null => false
  | bool b => b
  | number n => n ≠ 0
  | string s => s ≠ ""
  | array _ | object _ => true

def get : Json → String → Option Json
  | object fields, key => fields.lookup key
  | _, _ => none

def asF64 : Json → Option F64
  | number n => some (.fin n)
  | _ => none

end Json

namespace Flow

/-! ## Responses -/

structure Timings where
  blockedMs : F64 := 0
  connectMs : F64 := 0
  tlsMs : F64 := 0
  sendingMs : F64 := 0
  waitingMs : F64 := 0
  receivingMs : F64 := 0
  durationMs : F64 := 0

structure ProtocolResponse where
  error : Option String := none
  protocolVersion : String := ""
  status : ℤ := 0
  timings : Timings := {}
  bytesSent : ℕ := 0
  bytesReceived : ℕ := 0
  extras : Json := .null

def ProtocolResponse.failed (response : ProtocolResponse) : Bool :=
  if response.error.isSome then true
  else if response.protocolVersion.startsWith "HTTP" then 400 ≤ response.status
  else if response.protocolVersion = "grpc" then response.status ≠ 0
  else false

/-! ## Metrics -/

/-- The metrics of a protocol without a family of its own. -/
inductive FamilyMetric
  | reqs
  | reqDuration
  | docs
  | rows
  | msgs
deriving DecidableEq

inductive Metric
  | httpReqs
  | httpReqDuration
  | httpReqBlocked
  | httpReqConnecting
  | httpReqTlsHandshaking
  | httpReqSending
  | httpReqWaiting
  | httpReqReceiving
  | httpReqFailed
  | iterations
  | iterationDuration
  | checks
  | vuExceptions
  | faultsInjected
  | dataSent
  | dataReceived
  | grpcReqs
  | grpcReqDuration
  | graphqlReqs
  | graphqlReqDuration
  | wsConnecting
  | wsSessionDuration
  | wsMsgsSent
  | wsMsgsReceived
  | family (name : String) (metric : FamilyMetric)
deriving DecidableEq

/-- A sample, with its group path and its other tags. -/
structure Sample where
  metric : Metric
  value : F64
  groups : List String
  tags : List (String × String)
  /-- The names of the group and random steps that enclose the step in the scenario; the program
  does not know them. -/
  scope : List String := []

inductive Emission
  | sample (s : Sample)
  | beginRequest
  | endRequest

def rateValue (pass : Bool) : F64 :=
  if pass then .fin 1 else 0

def metricFamily (protocol : String) : String :=
  let cleaned := protocol.toList.map fun c =>
    let c := c.toLower
    if c.isAlphanum || c = '_' then c else '_'
  let trimmed := (cleaned.dropWhile (· = '_')).rdropWhile (· = '_')
  if trimmed.isEmpty then "plugin" else String.ofList trimmed

/-- The family of a protocol that has no arm of its own. -/
def otherFamily (protocol : String) : String :=
  if protocol = "grpc" ∨ protocol = "tcp" ∨ protocol = "udp" then protocol
  else if protocol = "sse" ∨ protocol = "browser" then "plugin"
  else metricFamily protocol

def ProtocolResponse.extra (response : ProtocolResponse) (key : String) : Option F64 :=
  (response.extras.get key).bind Json.asF64

def requestMetrics (protocol : String) (response : ProtocolResponse) : List (Metric × F64) :=
  let t := response.timings
  let data := [(.dataSent, .fin response.bytesSent), (.dataReceived, .fin response.bytesReceived)]
  let failed := rateValue response.failed
  if protocol = "http" ∨ protocol = "graphql" then
    data ++ [(.httpReqs, .fin 1), (.httpReqDuration, t.durationMs), (.httpReqBlocked, t.blockedMs),
      (.httpReqConnecting, t.connectMs), (.httpReqTlsHandshaking, t.tlsMs),
      (.httpReqSending, t.sendingMs), (.httpReqWaiting, t.waitingMs),
      (.httpReqReceiving, t.receivingMs), (.httpReqFailed, failed)] ++
      if protocol = "graphql" then [(.graphqlReqs, .fin 1), (.graphqlReqDuration, t.durationMs)]
      else []
  else if protocol = "grpc" then
    data ++ [(.grpcReqs, .fin 1), (.grpcReqDuration, t.durationMs), (.httpReqFailed, failed)]
  else if protocol = "ws" then
    -- A session fails by an error of its connection only.
    data ++ [(.wsConnecting, t.blockedMs), (.wsSessionDuration, t.durationMs),
      (.wsMsgsSent, (response.extra "msgs_sent").getD 0),
      (.wsMsgsReceived, (response.extra "msgs_received").getD 0),
      (.httpReqFailed, rateValue response.error.isSome)]
  else
    let family := otherFamily protocol
    let counted (key : String) (metric : FamilyMetric) : List (Metric × F64) :=
      (response.extra key).toList.map fun n => (.family family metric, n)
    data ++ [(.family family .reqs, .fin 1), (.family family .reqDuration, t.durationMs)] ++
      counted "docs" .docs ++ counted "rows" .rows ++ counted "msgs" .msgs ++
      [(.httpReqFailed, failed)]

/-! ## Tags -/

def hasText (text part : String) : Bool := decide (part.toList <:+: text.toList)

def classifyTransportError (error : String) : String :=
  let e := error.map Char.toLower
  let has := hasText e
  if has "fault injected" then "fault_injected"
  else if has "cancelled" || has "canceled" then "cancelled"
  else if has "timed out" || has "timeout" then "timeout"
  else if has "dns" || has "resolve" || has "name or service" then "dns"
  else if has "tls" || has "certificate" || has "ssl" then "tls"
  else if has "refused" then "connection_refused"
  else if has "reset" || has "broken pipe" || has "closed" then "connection_reset"
  else if has "connect" then "connection"
  else "transport"

structure PreparedRequest where
  name : String
  protocol : String
  method : String

def requestTags (request : PreparedRequest) (response : ProtocolResponse) :
    List (String × String) :=
  [("name", request.name), ("method", request.method), ("status", toString response.status),
    ("proto", request.protocol)] ++
  (response.error.map fun error => ("error_kind", classifyTransportError error)).toList

def isWhiteSpace (c : Char) : Bool :=
  let n := c.toNat
  (9 ≤ n && n ≤ 13) || n = 0x20 || n = 0x85 || n = 0xa0 || n = 0x1680 ||
    (0x2000 ≤ n && n ≤ 0x200a) || n = 0x2028 || n = 0x2029 || n = 0x202f || n = 0x205f || n = 0x3000

def trim (text : List Char) : List Char := (text.dropWhile isWhiteSpace).rdropWhile isWhiteSpace

theorem trim_eq_self {l : List Char} (h : ∀ c ∈ l, isWhiteSpace c = false) : trim l = l := by
  have hfirst : l.dropWhile isWhiteSpace = l :=
    List.dropWhile_eq_self_iff.2 fun hl => by simp [h _ (List.getElem_mem hl)]
  rw [trim, hfirst, List.rdropWhile_eq_self_iff]
  exact fun hl => by simp [h _ (List.getLast_mem hl)]

theorem trim_trim (l : List Char) : trim (trim l) = trim l := by
  have hfirst : (trim l).dropWhile isWhiteSpace = trim l := by
    have hpre : trim l <+: l.dropWhile isWhiteSpace := List.rdropWhile_prefix ..
    refine List.dropWhile_eq_self_iff.2 fun hl => ?_
    rw [hpre.getElem hl]
    exact List.dropWhile_get_zero_not isWhiteSpace l _
  rw [trim, hfirst]
  exact List.rdropWhile_idempotent _ _

def isQuote (c : Char) : Bool := c.toNat = 34 || c.toNat = 39 || c.toNat = 96

/-- The loop of `normalizeException`: it may be skipping to a quotation mark, and `placeholder` says
that the last thing put out was one. -/
def normalizeChars : Option Char → Bool → List Char → List Char
  | _, _, [] => []
  | some q, placeholder, c :: rest =>
    normalizeChars (if c = q then none else some q) placeholder rest
  | none, placeholder, c :: rest =>
    if isQuote c then
      (if placeholder then [] else ['…']) ++ normalizeChars (some c) true rest
    else if c.isDigit then
      (if placeholder then [] else ['N']) ++ normalizeChars none true rest
    else c :: normalizeChars none false rest

def normalizeException (message : String) : String :=
  let first := trim (message.toList.takeWhile (· ≠ '\n'))
  let capped := (trim (normalizeChars none false first)).take 120
  if capped.isEmpty then "exception" else String.ofList capped

/-! ## Emissions -/

def requestCancelledError : String := "request cancelled"

def faultDropError : String := "fault injected: request dropped before send"

def faultDropResponseError : String := "fault injected: response dropped"

/-- The samples of a completed or cancelled request. -/
def emitRequestMetrics (groups : List String) (request : PreparedRequest)
    (response : ProtocolResponse) : List Emission :=
  (requestMetrics request.protocol response).map fun m =>
    .sample ⟨m.1, m.2, groups, requestTags request response, []⟩

def cancelledResponse (elapsed : F64) : ProtocolResponse :=
  { error := some requestCancelledError, timings := { durationMs := elapsed } }

end Flow

end Loadr
