import Loadr.Flow.Data
import Loadr.Flow.RenderJson
import Loadr.Flow.Url

/-!
# Resolving templates

How the expressions of a template are resolved while a request is prepared: `resolveExpr` is that of
the context of a virtual user, `renderExpr` adds generated payloads and script expressions.

What the run has fixed is the `World`; what rendering may change is the `Session`, which also logs
the rows that were looked up.  What a script does with the virtual user is a `ScriptRun`.
-/

namespace Loadr.Request

open Loadr.Flow

/-- The parts of a request that have templates. -/
inductive Field
  | url
  | base
  | params
  | headers
  | body
  | ws
  /-- A message of a streaming call, by its number. -/
  | frame (k : ℕ)
  | metadata
  | message
  | socket
  | sql
  | plugin
  | name
deriving DecidableEq

/-! ## The world -/

/-- What an evaluation of a script does with the virtual user: the sources it looks up, the error it
ends with if that fails, the variables it sets, its value.  A lookup whose failure the script catches
leaves no row behind and is left out. -/
structure ScriptRun where
  lookups : List String := []
  failure : String := ""
  vars : List (String × Json) := []
  result : Except String Json

/-- The script engine of a virtual user.  Evaluations in a part of a request are numbered. -/
structure ScriptEngine where
  functions : List String
  eval : Field → ℕ → String → ScriptRun

structure Library where
  print : Json → String
  toVec : Json → List UInt8
  fromStr : String → Option Json
  generate : String → Except String (List UInt8)
  fromUtf8Lossy : List UInt8 → String
  decodeBase64 : String → Except String (List UInt8)

structure World where
  lib : Library
  env : String → Option String := fun _ => none
  runVariables : String → Option Json := fun _ => none
  secrets : String → Option String := fun _ => none
  processEnv : String → Option String := fun _ => none
  data : DataFeeds := ⟨[]⟩
  vuId : ℕ := 1
  iteration : ℕ := 1
  scenario : String := ""
  script : Option ScriptEngine := none
  supply : ℕ → Supply
  uuid : String := ""

/-- Stringify a value for interpolation. -/
def Library.jsonToString (lib : Library) : Json → String
  | .string s => s
  | other => lib.print other

/-! ## The session -/

/-- A row that was looked up: the `number`-th one that was taken from its source. -/
structure Lookup where
  field : Field
  source : String
  number : ℕ
  row : Row
deriving DecidableEq

structure Session where
  data : DataContext := {}
  counters : Counters := {}
  vars : String → Option Json := fun _ => none
  calls : ℕ := 0
  /-- The evaluations of scripts by the part of the request. -/
  evals : Field → ℕ := fun _ => 0
  taken : String → ℕ := fun _ => 0
  log : List Lookup := []

inductive PrepareError
  | dataExhausted
  | other (message : String)
deriving DecidableEq

abbrev Render := Rendering Session PrepareError

def Session.isCached (s : Session) (source : String) : Bool := (s.data.currentRows source).isSome

/-- The row of a source, with an entry in the log. -/
def Session.dataRow (w : World) (f : Field) (source : String) (s : Session) :
    Except NextRowError Row × Session :=
  let supply := w.supply s.calls
  let counters := { s.counters with
    shared := fun source => s.counters.shared source + supply.others source }
  match s.data.dataRow w.data source supply counters with
  | (.ok row, counters, data) =>
    let number := if s.isCached source then s.taken source else s.taken source + 1
    (.ok row, { s with
      data, counters
      calls := s.calls + 1
      taken := Function.update s.taken source number
      log := s.log ++ [⟨f, source, number, row⟩] })
  | (.error e, counters, data) => (.error e, { s with data, counters, calls := s.calls + 1 })

def Session.beginRequest (w : World) (s : Session) : Session :=
  { s with
    data := s.data.beginRequest w.data
    evals := fun _ => 0
    taken := fun _ => 0
    log := [] }

def Session.beginMessage (w : World) (s : Session) : Session :=
  { s with data := s.data.beginMessage w.data }

/-! ## Expressions -/

def stripPrefix (start s : String) : Option String :=
  if start.toList.isPrefixOf s.toList then some (String.ofList (s.toList.drop start.length))
  else none

def splitOnce (c : Char) (s : String) : Option (String × String) :=
  if c ∈ s.toList then
    some (String.ofList (s.toList.takeWhile (· ≠ c)),
      String.ofList (s.toList.dropWhile (· ≠ c)).tail)
  else none

def rsplitOnce (c : Char) (s : String) : Option (String × String) :=
  if c ∈ s.toList then
    some (String.ofList (s.toList.rdropWhile (· ≠ c)).dropLast,
      String.ofList (s.toList.rtakeWhile (· ≠ c)))
  else none

def staticValue (w : World) (expr : String) : Option (Option String) :=
  match stripPrefix "env." expr with
  | some name => some (w.env name)
  | none => match stripPrefix "vars." expr with
    | some name => some ((w.runVariables name).map w.lib.jsonToString)
    | none => (stripPrefix "secrets." expr).map w.secrets

def bareValue (w : World) (vars : String → Option Json) (expr : String) : Option String :=
  if expr = "vu" then some (toString w.vuId)
  else if expr = "iteration" then some (toString (w.iteration - 1))
  else if expr = "scenario" then some w.scenario
  else match vars expr with
    | some v => some (w.lib.jsonToString v)
    | none => (w.runVariables expr).map w.lib.jsonToString

/-- The source that an expression looks up, and the column it takes. -/
def dataReference (expr : String) : Option (Option (String × String)) :=
  (stripPrefix "data." expr).map (splitOnce '.')

def resolveExpr (w : World) (f : Field) (expr : String) (s : Session) :
    Except NextRowError (Option String) × Session :=
  match staticValue w expr with
  | some value => (.ok value, s)
  | none => match dataReference expr with
    | some none => (.ok none, s)
    | some (some (source, column)) =>
      let (row, s) := s.dataRow w f source
      (row.map fun row => row.lookup column, s)
    | none => (.ok (bareValue w s.vars expr), s)

def resolvePayloadEnv (w : World) (spec : String) : String :=
  match rsplitOnce ':' spec with
  | some (kind, magnitude) => match magnitude.toList with
    | '$' :: name => kind ++ ":" ++ (w.processEnv (String.ofList name)).getD ""
    | _ => spec
  | none => spec

/-- The lookups of a script, the first failure of which ends it. -/
def lookupRows (w : World) (f : Field) : List String → Session → Bool × Session
  | [], s => (true, s)
  | source :: sources, s =>
    match s.dataRow w f source with
    | (.ok _, s) => lookupRows w f sources s
    | (.error _, s) => (false, s)

def evalScript (w : World) (f : Field) (engine : ScriptEngine) (code : String) (s : Session) :
    Except String Json × Session :=
  let run := engine.eval f (s.evals f) code
  let s := { s with evals := Function.update s.evals f (s.evals f + 1) }
  match lookupRows w f run.lookups s with
  | (true, s) => (run.result, { s with
      vars := run.vars.foldl (fun vars (name, v) => Function.update vars name (some v)) s.vars })
  | (false, s) => (.error run.failure, s)

def renderExpr (w : World) (f : Field) (expr : String) : Render String :=
  match stripPrefix "payload:" expr with
  | some spec => match w.lib.generate (resolvePayloadEnv w spec) with
    | .ok bytes => pure (w.lib.fromUtf8Lossy bytes)
    | .error e => throw (.other e)
  | none => match stripPrefix "js:" expr with
    | some code => match w.script with
      | none => throw (.other ("`$\x7bjs: ...\x7d` needs a script engine: " ++ expr))
      | some engine => ExceptT.mk fun s =>
        let (value, s) := evalScript w f engine code s
        ((value.mapError PrepareError.other).map w.lib.jsonToString, s)
    | none => ExceptT.mk fun s =>
      match resolveExpr w f expr s with
      | (.ok (some v), s) => (.ok v, s)
      | (.ok none, s) => (.error (.other ("unresolved template variable `" ++ expr ++ "`")), s)
      | (.error (.exhausted _), s) => (.error .dataExhausted, s)
      | (.error (.unknownSource source), s) =>
        (.error (.other ("unknown data source `" ++ source ++ "`")), s)
      | (.error (.plugin source message), s) =>
        (.error (.other ("data source `" ++ source ++ "`: plugin error: " ++ message)), s)

def renderTemplate (w : World) (f : Field) (t : Template) : Render String :=
  t.render (renderExpr w f)

def renderStr (w : World) (f : Field) (s : String) : Render String :=
  match Template.parse s with
  | .ok t => renderTemplate w f t
  | .error e => throw (.other e.message)

def renderJson (w : World) (f : Field) (v : Json) : Render Json :=
  Flow.renderJson w.lib.fromStr (renderTemplate w f) (fun e => .other e.message) v

end Loadr.Request
