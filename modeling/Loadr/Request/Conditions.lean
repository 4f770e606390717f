import Loadr.Request.Resolve

/-!
# Conditions on responses

Assertions and checks of a request, and what their evaluation makes of a response.  `readsBody`
tells which kinds need the body.  The gRPC handler evaluates a condition on a field of the response
message and leaves an outcome in the response, in the slot that `bindProtobufCheck` has given to it.

Regular expressions, JSONPath and XPath are those of their libraries.
-/

namespace Loadr.Request

open Loadr.Flow

deriving instance BEq for Json

/-! ## Responses -/

def eqIgnoreAsciiCase (a b : String) : Bool := a.toList.map Char.toLower = b.toList.map Char.toLower

/-- A check of a field of the decoded response message. -/
structure GrpcProtobufFieldCheck where
  id : ℕ
  field : String
  equals : Option Json
  exists_ : Bool
  groupFailures : Bool

/-- What the handler found for a check of a message field. -/
structure GrpcProtobufFieldOutcome where
  id : ℕ
  pass : Bool
  detail : Option String
  actualCode : Option ℤ
  missing : Bool
deriving DecidableEq

structure ProtocolResponse where
  status : ℤ := 0
  statusText : String := ""
  headers : List (String × String) := []
  body : List UInt8 := []
  durationMs : F64 := 0
  bytesSent : ℕ := 0
  bytesReceived : ℕ := 0
  protocolVersion : String := ""
  error : Option String := none
  url : String := ""
  messageCount : Option ℕ := none
  grpcProtobufOutcomes : List GrpcProtobufFieldOutcome := []
deriving DecidableEq

def ProtocolResponse.header (r : ProtocolResponse) (name : String) : Option String :=
  (r.headers.find? fun h => eqIgnoreAsciiCase h.1 name).map (·.2)

def ProtocolResponse.bodyText (lib : Library) (r : ProtocolResponse) : String :=
  lib.fromUtf8Lossy r.body

/-- An extractor, by what it makes of a response. -/
structure CompiledExtractor where
  name : String
  extract : ProtocolResponse → Except String Json

/-! ## Compiling -/

structure Regex where
  pattern : String
  isMatch : String → Bool

/-- What the libraries of the conditions compute. -/
structure Matchers where
  regex : String → Except String Regex
  jsonPath : String → Except String (Json → Option Json)
  xpathEval : String → String → Except String (Option String)
  fromSlice : List UInt8 → Option Json
  debug : String → String
  /-- A number with so many decimal places. -/
  fixed : ℕ → F64 → String

/-- A condition of the plan, without its name and its action. -/
inductive ConditionSpec
  | status (equals : Option ℤ) (oneOf : Option (List ℤ)) (matches_ : Option String)
  | bodyContains (value : String) (negate : Bool)
  | bodyMatches (pattern : String) (negate : Bool)
  | jsonpath (expression : String) (equals : Option Json) (exists_ : Option Bool)
  | protobufField (field : String) (equals : Option Json) (exists_ : Option Bool)
      (failureGroups : Option (List (ℤ × String)))
  | xpath (expression : String) (equals : Option String) (exists_ : Option Bool)
  | duration (maxMs : F64)
  | size (min max equals : Option ℕ)
  | header (header : String) (equals contains : Option String) (exists_ : Option Bool)
  | js (expression : String)

structure Condition where
  name : String
  onFailure : FailureAction := .continue
  spec : ConditionSpec

inductive Kind
  | status (equals : Option ℤ) (oneOf : Option (List ℤ)) (matches_ : Option Regex)
  | bodyContains (value : String) (negate : Bool)
  | bodyMatches (pattern : Regex) (negate : Bool)
  | jsonpath (path : Json → Option Json) (equals : Option Json) (exists_ : Bool)
  | protobufField (id : Option ℕ) (field : String) (equals : Option Json) (exists_ : Bool)
      (failureGroups : Option (List (ℤ × String)))
  | xpath (expression : String) (equals : Option String) (exists_ : Bool)
  | duration (maxMs : F64)
  | size (min max equals : Option ℕ)
  | header (header : String) (equals contains : Option String) (exists_ : Bool)
  | js (expression : String)

structure CompiledCondition where
  name : String
  onFailure : FailureAction
  kind : Kind

/-- An error of a library, with the name of the condition. -/
def conditionError {α : Type} (name : String) : Except String α → Except String α :=
  Except.mapError fun e => "condition `" ++ name ++ "`: " ++ e

def compileKind (m : Matchers) (name : String) : ConditionSpec → Except String Kind
  | .status equals oneOf none => return .status equals oneOf none
  | .status equals oneOf (some pattern) => do
    let regex ← conditionError name (m.regex pattern)
    return .status equals oneOf (some regex)
  | .bodyContains value negate => return .bodyContains value negate
  | .bodyMatches pattern negate => do
    let regex ← conditionError name (m.regex pattern)
    return .bodyMatches regex negate
  | .jsonpath expression equals exists_ => do
    let path ← conditionError name (m.jsonPath expression)
    return .jsonpath path equals (exists_.getD true)
  | .protobufField field equals exists_ failureGroups =>
    return .protobufField none field equals (exists_.getD true) failureGroups
  | .xpath expression equals exists_ => return .xpath expression equals (exists_.getD true)
  | .duration maxMs => return .duration maxMs
  | .size min max equals => return .size min max equals
  | .header header equals contains exists_ =>
    return .header header equals contains (exists_.getD true)
  | .js expression => return .js expression

def CompiledCondition.compile (m : Matchers) (spec : Condition) :
    Except String CompiledCondition := do
  let kind ← compileKind m spec.name spec.spec
  return ⟨spec.name, spec.onFailure, kind⟩

/-! ## Evaluating -/

structure ConditionFailureGroup where
  code : Option ℤ
  label : String
deriving DecidableEq

structure ConditionResult where
  name : String
  pass : Bool := true
  detail : Option String := none
  onFailure : FailureAction
  needsJs : Option String := none
  failureGroup : Option ConditionFailureGroup := none
deriving DecidableEq

namespace ConditionResult

def fail (detail : String) (result : ConditionResult) : ConditionResult :=
  { result with pass := false, detail := some detail }

def failIf (failed : Bool) (detail : String) (result : ConditionResult) : ConditionResult :=
  if failed then result.fail detail else result

def expect {α : Type} (expected : Option α) (holds : α → Bool) (detail : α → String)
    (result : ConditionResult) : ConditionResult :=
  match expected with
  | none => result
  | some e => result.failIf (!holds e) (detail e)

end ConditionResult

/-- What a value that may be found must satisfy. -/
def expectFound {α : Type} (exists_ : Bool) (found : Option α) (missing : String)
    (unexpected : α → String) (check : α → ConditionResult → ConditionResult)
    (result : ConditionResult) : ConditionResult :=
  match exists_, found with
  | true, none => result.fail missing
  | false, some v => result.fail (unexpected v)
  | true, some v => check v result
  | false, none => result

def failureGroupOf (groups : List (ℤ × String)) (outcome : GrpcProtobufFieldOutcome) :
    ConditionFailureGroup :=
  if outcome.missing then ⟨none, "missing"⟩
  else match outcome.actualCode with
    | some code => match groups.lookup code with
      | some label => ⟨some code, label⟩
      | none => ⟨none, "other"⟩
    | none => ⟨none, "other"⟩

namespace CompiledCondition

variable (lib : Library) (m : Matchers)

def evaluateProtobuf (groups : Option (List (ℤ × String)))
    (outcome : Option GrpcProtobufFieldOutcome) (result : ConditionResult) : ConditionResult :=
  match outcome with
  | some outcome => { result with
      pass := outcome.pass
      detail := outcome.detail
      failureGroup := if outcome.pass then none else groups.map (failureGroupOf · outcome) }
  | none => { result.fail "no protobuf response message was available" with
      failureGroup := groups.map fun _ => ⟨none, "no_response"⟩ }

def evaluate (c : CompiledCondition) (response : ProtocolResponse) : ConditionResult :=
  let result : ConditionResult := { name := c.name, onFailure := c.onFailure }
  match c.kind with
  | .status equals oneOf matches_ =>
    let status := response.status
    ((result.expect equals (status = ·)
      fun e => "expected status " ++ toString e ++ ", got " ++ toString status).expect oneOf
        (status ∈ ·) fun set => "expected status in " ++ toString set ++ ", got " ++
          toString status).expect matches_ (·.isMatch (toString status))
            fun re => "status " ++ toString status ++ " does not match /" ++ re.pattern ++ "/"
  | .bodyContains value negate =>
    result.failIf (hasText (response.bodyText lib) value == negate)
      (if negate then "body unexpectedly contains " ++ m.debug value
        else "body does not contain " ++ m.debug value)
  | .bodyMatches pattern negate =>
    result.failIf (pattern.isMatch (response.bodyText lib) == negate)
      (if negate then "body unexpectedly matches /" ++ pattern.pattern ++ "/"
        else "body does not match /" ++ pattern.pattern ++ "/")
  | .jsonpath path equals exists_ =>
    result |> expectFound exists_ (path ((m.fromSlice response.body).getD .null))
      "no JSONPath match" (fun v => "unexpected JSONPath match: " ++ lib.print v)
      fun v result => result.expect equals (v == ·)
        fun expected => "expected " ++ lib.print expected ++ ", got " ++ lib.print v
  | .protobufField id _ _ _ groups =>
    evaluateProtobuf groups
      (id.bind fun id => response.grpcProtobufOutcomes.find? (·.id = id)) result
  | .xpath expression equals exists_ =>
    match m.xpathEval (response.bodyText lib) expression with
    | .error e => result.fail ("xpath error: " ++ e)
    | .ok found =>
      result |> expectFound exists_ found "no XPath match"
        (fun v => "unexpected XPath match: " ++ v)
        fun v result => result.expect equals (v = ·)
          fun expected => "expected " ++ m.debug expected ++ ", got " ++ m.debug v
  | .duration maxMs =>
    let actual := response.durationMs
    result.failIf (maxMs.lt actual)
      ("duration " ++ m.fixed 1 actual ++ "ms exceeds " ++ m.fixed 0 maxMs ++ "ms")
  | .size min max equals =>
    let size := response.body.length
    ((result.expect equals (size = ·)
      fun e => "expected size " ++ toString e ++ ", got " ++ toString size).expect min (· ≤ size)
        fun m => "size " ++ toString size ++ " below minimum " ++ toString m).expect max (size ≤ ·)
          fun m => "size " ++ toString size ++ " above maximum " ++ toString m
  | .header header equals contains exists_ =>
    result |> expectFound exists_ (response.header header)
      ("missing header `" ++ header ++ "`")
      (fun v => "unexpected header `" ++ header ++ ": " ++ v ++ "`")
      fun v result => (result.expect equals (v = ·) fun e =>
        "header `" ++ header ++ "` is " ++ m.debug v ++ ", expected " ++ m.debug e).expect contains
          (hasText v ·) fun c => "header `" ++ header ++ "` is " ++ m.debug v ++
            ", expected to contain " ++ m.debug c
  | .js expression => { result with needsJs := some expression }

def readsBody (c : CompiledCondition) : Bool :=
  match c.kind with
  | .status .. | .protobufField .. | .duration .. | .header .. => false
  | _ => true

def bindProtobufCheck (slot : ℕ) (c : CompiledCondition) :
    CompiledCondition × Option GrpcProtobufFieldCheck :=
  match c.kind with
  | .protobufField _ field equals exists_ groups =>
    ({ c with kind := .protobufField (some slot) field equals exists_ groups },
      some ⟨slot, field, equals, exists_, groups.isSome⟩)
  | _ => (c, none)

def bindAll : ℕ → List CompiledCondition → List CompiledCondition × List GrpcProtobufFieldCheck
  | _, [] => ([], [])
  | slot, c :: cs =>
    match c.bindProtobufCheck slot with
    | (c, some check) =>
      let (cs, checks) := bindAll (slot + 1) cs
      (c :: cs, check :: checks)
    | (c, none) =>
      let (cs, checks) := bindAll slot cs
      (c :: cs, checks)

end CompiledCondition

end Loadr.Request
