import Loadr.Flow.Metrics
import Loadr.Lib.Dialogue

/-!
# Flow interpreter

What the interpreter does not decide is a `Query`: how a request is rendered and answered, what
extractors and conditions make of the response, what the script engine returns, random draws and the
clock.  What it leaves outside the virtual user is an `Output`.  The samples a script records itself
are left out.

The branches of a parallel step are run one after the other: each works on a context of its own, so
none of them sees how they interleave.  Where the iteration is dropped while they run, each branch
that is not through ends at a point of its own (`sever`).  A run also returns its trace.
-/

namespace Loadr.Flow

/-! ## Compiled steps -/

inductive FailureAction
  | continue
  | abortIteration
  | abortScenario
  | abortTest
deriving DecidableEq

/-- An extractor; a chain may validate the value, with an action if that fails. -/
structure CompiledExtractor where
  name : String
  check : Option FailureAction

structure CompiledCondition where
  name : String
  js : Option String
  onFailure : FailureAction

structure CompiledRequest where
  displayName : String
  protocol : String
  method : String
  extract : List CompiledExtractor
  assert : List CompiledCondition
  checks : List CompiledCondition

inductive SwitchStrategy
  | weighted
  | uniform
  | roundRobin

structure CompiledChoice (Step : Type) where
  weight : F64
  name : Option String
  steps : List Step

inductive CompiledStep
  | request (req : CompiledRequest)
  | thinkTime
  | js (call script : Option String)
  | group (name : String) (steps : List CompiledStep)
  | repeatStep (times : ℕ) (counter : Option String) (steps : List CompiledStep)
  | whileStep (condition : String) (maxIterations : ℕ) (steps : List CompiledStep)
  | ifStep (condition : String) (then_ otherwise : List CompiledStep)
  | random (strategy : SwitchStrategy) (choices : List (CompiledChoice CompiledStep))
  | foreach (items : Json) (var index : String) (steps : List CompiledStep)
  | switch (value : String) (cases : List (String × List CompiledStep))
      (default : List CompiledStep)
  | during (duration : ℕ) (counter : String) (steps : List CompiledStep)
  | retry (times : ℕ) (until_ : Option String) (backoff : Option ℕ) (steps : List CompiledStep)
  | parallel (branches : List (List CompiledStep))
  | rendezvous (name : String) (users timeout : ℕ)

structure Script where
  functions : List String

inductive DropMode
  | beforeSend
  | afterResponse
deriving DecidableEq

structure FaultSpec where
  latency : Option ℕ := none
  dropRate : Option F64 := none
  dropMode : Option DropMode := none

structure ScenarioProgram where
  name : String
  steps : List CompiledStep
  exec : Option String := none
  onStart : Option String := none
  thinkTime : Bool := false
  throttle : Bool := false
  faults : Option FaultSpec := none

/-! ## State and outcomes -/

structure VuContext where
  iteration : ℕ
  groups : List String
  vars : String → Option Json
  lastRequestFailed : Bool

def VuContext.new : VuContext := ⟨0, [], fun _ => none, false⟩

inductive IterationOutcome
  | completed
  | stopVu
  | abortScenario
  | abortTest (reason : String)
deriving DecidableEq

inductive RequestFlow
  | continue
  | abortIteration
  | stopVu
  | abortScenario
  | abortTest (reason : String)
deriving DecidableEq

inductive Event
  | step (step : CompiledStep)
  /-- A request ended with these actions of failed checks. -/
  | checked (req : CompiledRequest) (fired : List FailureAction)
  | branches (traces : List (List Event))
  | called (function : String)

structure Result where
  vu : VuContext
  trace : List Event
  outcome : IterationOutcome

/-- What one step leaves: `stop` is the outcome with which the list it stands in returns. -/
structure StepResult where
  vu : VuContext
  trace : List Event
  stop : Option IterationOutcome

/-! ## Questions -/

inductive Preparation
  | ready (name : String)
  | dataExhausted
  | other
deriving DecidableEq

inductive ScriptInvocation
  | call (name : String)
  | eval (code : String)

/-- Where the interpreter turns to a script or a condition. -/
inductive Site
  | onStart
  | jsStep
  | exec
  | beforeRequest
  | afterRequest
  | assertion
  | check
  | step
deriving DecidableEq

/-- A call to the data feeds while a value is computed: for the row of a source, or for the next
frame of a streamed request. -/
inductive FeedCall
  | row (source : String)
  | message
deriving DecidableEq

/-- A value, with the variables that a script that ran on the way left, what it popped off the group
stack and pushed onto it (nothing where no script ran), and the calls to the data feeds on the
way. -/
structure Effect (α : Type) where
  value : α
  vars : String → Option Json
  popped : ℕ
  pushed : List String
  calls : List FeedCall

/-- The group under which a failed check is recorded. -/
structure FailureGroup where
  label : String
  code : Option ℤ

structure ConditionResult where
  pass : Bool
  failureGroup : Option FailureGroup := none

inductive Query
  | throttle
  | jitter (latency : ℕ)
  | prepare (req : CompiledRequest)
  | handled (req : CompiledRequest)
  | dropDraw
  | execute (req : CompiledRequest)
  | extract (extractor : CompiledExtractor) (response : ProtocolResponse)
  | check (extractor : CompiledExtractor) (value : Json)
  | evaluate (site : Site) (condition : CompiledCondition) (response : ProtocolResponse)
  | script (site : Site) (invocation : ScriptInvocation)
  | render (template : String)
  | items (template : String)
  | cursor
  | index (choices : ℕ)
  | draw (total : F64)
  | rounds (duration : ℕ)
  | elapsed
  /-- Whether the iteration is dropped while a parallel branch waits here. -/
  | cancelled
  /-- A dropped iteration does not go on. -/
  | resumed

def Query.Answer : Query → Type
  | .throttle => ℕ
  | .jitter latency => { pause : ℕ // latency = 0 → pause = 0 }
  | .prepare _ => Effect Preparation
  | .handled _ => Bool
  | .dropDraw => { draw : F64 // F64.le 0 draw ∧ F64.lt draw (.fin 1) }
  | .execute _ => ProtocolResponse
  | .extract _ _ => Option Json
  | .check _ _ => Bool
  | .evaluate _ _ _ => ConditionResult
  -- The value, or the text of the error.
  | .script _ _ => Effect (Except String Json)
  | .render _ => Effect (Option String)
  -- The rendered text parsed as JSON, `none` where either fails.
  | .items _ => Effect (Option Json)
  | .cursor => ℕ
  | .index choices => Fin choices
  | .draw total => { pick : F64 // F64.le 0 pick ∧ F64.lt pick total }
  -- How often the clock is read before the deadline.
  | .rounds duration => { n : ℕ // duration = 0 → n = 0 }
  | .elapsed => F64
  -- If so, the time since the request began that is in flight there.
  | .cancelled => Option F64
  | .resumed => Empty

/-! ## Outputs -/

/-- A point at which the executor may drop the iteration. -/
structure Await where
  scope : List String := []
  vu : VuContext
  /-- What is emitted as the iteration is dropped, so long after the request began. -/
  onDrop : F64 → List Emission := fun _ => []

inductive Output
  | emit (emissions : List Emission)
  | await (point : Await)
  | beginIteration
  /-- The data feeds learn that the request of this name is prepared. -/
  | beginRequest (name : String)
  | feed (calls : List FeedCall)
  /-- The result of a request goes to the feeds of its rows. -/
  | reportResult (name : String) (response : ProtocolResponse)
  | fork
  | join
  /-- `last_request_failed` is set back, by an attempt of a `retry` step or a parallel step.  Nobody
  else sees it. -/
  | reset

abbrev Run := Dialogue Query Query.Answer Output

def ask (q : Query) : Run q.Answer := Dialogue.query q

def tell (o : Output) : Run Unit := Dialogue.report o

variable {q : Query} {P : Unit → Prop} {o : Output} {vu : VuContext} {b : Bool}

@[simp] theorem every_ask {P : q.Answer → Prop} : (ask q).Every P ↔ ∀ a, P a := Iff.rfl

@[simp] theorem can_ask {P : q.Answer → Prop} : (ask q).Can P ↔ ∃ a, P a := Iff.rfl

@[simp] theorem every_tell : (tell o).Every P ↔ P () := Iff.rfl

@[simp] theorem can_tell : (tell o).Can P ↔ P () := Iff.rfl

def Emission.within (name : String) : Emission → Emission
  | .sample s => .sample { s with scope := name :: s.scope }
  | e => e

def Output.within (name : String) : Output → Output
  | .emit emissions => .emit (emissions.map (.within name))
  | .await point => .await { point with
      scope := name :: point.scope
      onDrop := fun elapsed => (point.onDrop elapsed).map (.within name) }
  | o => o

def VuContext.sample (vu : VuContext) (metric : Metric) (value : F64)
    (tags : List (String × String)) : Emission :=
  .sample ⟨metric, value, vu.groups, tags, []⟩

/-- Let the executor run something else. -/
def pause (vu : VuContext) : Run Unit := tell (.await { vu })

def pauseIf (sleeps : Bool) (vu : VuContext) : Run Unit :=
  if sleeps then pause vu else return ()

def emitIf (applies : Bool) (emission : Emission) : Run Unit :=
  if applies then tell (.emit [emission]) else return ()

@[simp] theorem every_pause : (pause vu).Every P ↔ P () := Iff.rfl

@[simp] theorem every_pauseIf : (pauseIf b vu).Every P ↔ P () := by cases b <;> exact Iff.rfl

@[simp] theorem can_pauseIf : (pauseIf b vu).Can P ↔ P () := by cases b <;> exact Iff.rfl

@[simp] theorem every_emitIf {e : Emission} :
    (emitIf b e).Every P ↔ P () := by cases b <;> exact Iff.rfl

@[simp] theorem can_emitIf {e : Emission} :
    (emitIf b e).Can P ↔ P () := by cases b <;> exact Iff.rfl

/-! ## Scripts and templates -/

def VuContext.insert (vu : VuContext) (name : String) (value : Json) : VuContext :=
  { vu with vars := fun x => if x = name then some value else vu.vars x }

def VuContext.remove (vu : VuContext) (name : String) : VuContext :=
  { vu with vars := fun x => if x = name then none else vu.vars x }

/-- Only a script changes variables or groups while a value is computed. -/
def VuContext.affected {α : Type} (vu : VuContext) (script : Option Script) (effect : Effect α) :
    VuContext :=
  match script with
  | some _ => { vu with
      vars := effect.vars
      groups := vu.groups.take (vu.groups.length - effect.popped) ++ effect.pushed }
  | none => vu

def runScript (site : Site) (script : Script) (invocation : ScriptInvocation) (vu : VuContext) :
    Run (Except String Json × VuContext) := do
  let effect ← ask (.script site invocation)
  tell (.feed (Effect.calls effect))
  return (Effect.value effect, vu.affected (some script) effect)

def renderTemplate (script : Option Script) (template : String) (vu : VuContext) :
    Run (Option String × VuContext) := do
  let effect ← ask (.render template)
  tell (.feed (Effect.calls effect))
  return (Effect.value effect, vu.affected script effect)

def callHook (site : Site) (script : Option Script) (function : String) (vu : VuContext) :
    Run (Option Json × VuContext) :=
  match script with
  | some engine =>
    if function ∈ engine.functions then do
      let (value, vu) ← runScript site engine (.call function) vu
      return (value.toOption, vu)
    else return (none, vu)
  | none => return (none, vu)

/-- Evaluate a script condition: false on error or without an engine. -/
def evalConditionBool (script : Option Script) (expr : String) (vu : VuContext) :
    Run (Bool × VuContext) :=
  match script with
  | some engine => do
    let (value, vu) ← runScript .step engine (.eval expr) vu
    return (value.toOption.any Json.isTruthy, vu)
  | none => return (false, vu)

def resolveItems (script : Option Script) (items : Json) (vu : VuContext) :
    Run (List Json × VuContext) :=
  match items with
  | .array a => return (a, vu)
  | .string s => do
    let effect ← ask (.items s)
    tell (.feed (Effect.calls effect))
    let list := match Effect.value effect with
      | some (.array a) => a
      | some other => [other]
      | none => []
    return (list, vu.affected script effect)
  | other => return ([other], vu)

/-- The sample of an exception of a script, and what the site of it is called. -/
def recordException (vu : VuContext) (site message : String) : Run Unit :=
  tell (.emit [vu.sample .vuExceptions (.fin 1)
    [("exception", normalizeException message), ("site", site)]])

def runRecorded (site : Site) (siteName : String) (script : Script)
    (invocation : ScriptInvocation) (vu : VuContext) : Run VuContext := do
  let (value, vu) ← runScript site script invocation vu
  match value with
  | .ok _ => return vu
  | .error message => do
    recordException vu siteName message
    return vu

/-! ## Requests -/

/-- The flow after a failed check with the given action. -/
def RequestFlow.after (flow : RequestFlow) (action : FailureAction) (reason : String) :
    RequestFlow :=
  match action with
  | .continue => flow
  | .abortIteration => .abortIteration
  | .abortScenario => .abortScenario
  | .abortTest => .abortTest reason

/-- The accumulators of the loops over the extractors and assertions of a request.  `fired` records
the actions of the checks that failed. -/
structure Checked where
  vu : VuContext
  flow : RequestFlow := .continue
  failed : Bool := false
  fired : List FailureAction := []

def Checked.fail (c : Checked) (action : FailureAction) (reason : String) : Checked :=
  { c with flow := c.flow.after action reason, failed := true, fired := c.fired ++ [action] }

def checkSample (vu : VuContext) (name : String) (pass : Bool) : Emission :=
  vu.sample .checks (rateValue pass) [("check", name)]

def failureSample (vu : VuContext) (tags : List (String × String)) : Emission :=
  vu.sample .httpReqFailed (rateValue true) tags

def runExtract (prepared : String) (response : ProtocolResponse) :
    List CompiledExtractor → Checked → Run Checked
  | [], c => return c
  | e :: rest, c => do
    let extracted ← ask (.extract e response)
    match (extracted : Option Json) with
    | none => runExtract prepared response rest { c with failed := true }
    | some value =>
      match e.check with
      | none => runExtract prepared response rest { c with vu := c.vu.insert e.name value }
      | some onFailure => do
        let pass ← ask (.check e value)
        tell (.emit [checkSample c.vu e.name pass])
        match (pass : Bool) with
        | true => runExtract prepared response rest { c with vu := c.vu.insert e.name value }
        | false =>
          runExtract prepared response rest (c.fail onFailure
            ("chain `" ++ e.name ++ "` check failed on `" ++ prepared ++ "`"))

def evalCondition (site : Site) (script : Option Script) (condition : CompiledCondition)
    (response : ProtocolResponse) (vu : VuContext) : Run (ConditionResult × VuContext) :=
  match condition.js, script with
  | some expr, some engine => do
    -- The engine sees the response as a variable for the time of the call.
    let (value, vu) ← runScript site engine (.eval expr) vu
    return ({ pass := value.toOption.any Json.isTruthy }, vu.remove "response")
  | some _, none => return ({ pass := false }, vu)
  | none, _ => do
    let result ← ask (.evaluate site condition response)
    return ((result : ConditionResult), vu)

def runAssert (script : Option Script) (prepared : String) (response : ProtocolResponse) :
    List CompiledCondition → Checked → Run Checked
  | [], c => return c
  | condition :: rest, c => do
    let (result, vu) ← evalCondition .assertion script condition response c.vu
    if result.pass then runAssert script prepared response rest { c with vu }
    else
      runAssert script prepared response rest ({ c with vu }.fail condition.onFailure
        ("assertion `" ++ condition.name ++ "` failed on `" ++ prepared ++ "`"))

def conditionSample (vu : VuContext) (name : String) (result : ConditionResult) : Emission :=
  match result.failureGroup with
  | none => checkSample vu name result.pass
  | some group => vu.sample .checks (rateValue result.pass)
      ([("check", name), ("failure_group", group.label)] ++
        (group.code.map fun code => ("failure_code", toString code)).toList)

def runChecks (script : Option Script) (response : ProtocolResponse) :
    List CompiledCondition → VuContext → Run VuContext
  | [], vu => return vu
  | condition :: rest, vu => do
    let (result, vu) ← evalCondition .check script condition response vu
    tell (.emit [conditionSample vu condition.name result])
    runChecks script response rest vu

def prepare (script : Option Script) (req : CompiledRequest) (vu : VuContext) :
    Run (Preparation × VuContext) := do
  let effect ← ask (.prepare req)
  tell (.feed (Effect.calls effect))
  return (Effect.value effect, vu.affected script effect)

def acquire (program : ScenarioProgram) (vu : VuContext) : Run Unit :=
  if program.throttle then do
    let wait : ℕ ← ask .throttle
    pauseIf (wait ≠ 0) vu
  else return ()

def noteFault (vu : VuContext) (kind : String) : Run Unit :=
  tell (.emit [vu.sample .faultsInjected (.fin 1) [("kind", kind)]])

def injectLatency (program : ScenarioProgram) (vu : VuContext) : Run Unit :=
  match program.faults.bind (·.latency) with
  | some latency => do
    let jitter ← ask (.jitter latency)
    if Subtype.val jitter = 0 then return ()
    else do
      noteFault vu "latency"
      pause vu
  | none => return ()

def faultDropDecision (rate : F64) : Run Bool :=
  if F64.lt 0 rate then do
    let draw ← ask .dropDraw
    return F64.lt (Subtype.val draw) rate
  else return false

def dropFault (program : ScenarioProgram) : Run (Option DropMode) :=
  match (program.faults.getD {}).dropRate with
  | some rate => do
    let dropped ← faultDropDecision rate
    return if dropped then some ((program.faults.getD {}).dropMode.getD .beforeSend) else none
  | none => return none

def applyRequestOverrides (prepared : PreparedRequest) (updated : Json) : PreparedRequest :=
  match updated.get "method" with
  | some (.string method) => { prepared with method := method.map Char.toUpper }
  | _ => prepared

/-- The response to a prepared request, or what stands for it if the request is dropped.  An
iteration that is dropped while the handler is at work records the request as cancelled. -/
def exchange (dropped : Option DropMode) (req : CompiledRequest) (prepared : PreparedRequest)
    (vu : VuContext) : Run ProtocolResponse :=
  match dropped with
  | some .beforeSend => do
    noteFault vu "drop"
    return { error := some faultDropError }
  | some .afterResponse => do
    let response ← execute
    noteFault vu "drop"
    return { response with error := some faultDropResponseError }
  | none => execute
where
  execute : Run ProtocolResponse := do
    tell (.await { vu, onDrop := fun elapsed =>
      emitRequestMetrics vu.groups prepared (cancelledResponse elapsed) ++ [.endRequest] })
    ask (.execute req)

/-- Send a prepared request, under the guard that sees to its samples. -/
def send (program : ScenarioProgram) (req : CompiledRequest) (prepared : PreparedRequest)
    (vu : VuContext) : Run ProtocolResponse := do
  let dropped ← dropFault program
  tell (.emit [.beginRequest])
  let response ← exchange dropped req prepared vu
  tell (.emit (emitRequestMetrics vu.groups prepared response ++ [.endRequest]))
  return response

def conclude (script : Option Script) (req : CompiledRequest) (name : String)
    (response : ProtocolResponse) (vu : VuContext) :
    Run (RequestFlow × VuContext × List FailureAction) := do
  let extracted ← runExtract name response req.extract { vu }
  emitIf extracted.failed (failureSample extracted.vu [("name", name)])
  tell (.reportResult req.displayName response)
  let (_, vu) ← callHook .afterRequest script "afterRequest" extracted.vu
  let asserted ← runAssert script name response req.assert
    { vu, flow := extracted.flow, fired := extracted.fired }
  emitIf asserted.failed (failureSample asserted.vu [("name", name)])
  let vu ← runChecks script response req.checks asserted.vu
  let failed := response.failed || asserted.failed || extracted.failed
  return (asserted.flow, { vu with lastRequestFailed := failed }, asserted.fired)

def runRequest (program : ScenarioProgram) (script : Option Script) (req : CompiledRequest)
    (vu : VuContext) : Run (RequestFlow × VuContext × List FailureAction) := do
  acquire program vu
  injectLatency program vu
  tell (.beginRequest req.displayName)
  let (prepared, vu) ← prepare script req vu
  match prepared with
  | .dataExhausted => return (.stopVu, vu, [])
  | .other => do
    tell (.emit [failureSample vu [("name", req.displayName), ("error", "prepare")]])
    return (.continue, vu, [])
  | .ready name => do
    let (updated, vu) ← callHook .beforeRequest script "beforeRequest" vu
    let prepared := applyRequestOverrides ⟨name, req.protocol, req.method⟩ (updated.getD .null)
    let handled ← ask (.handled req)
    match (handled : Bool) with
    | false => do
      tell (.emit [failureSample vu [("name", name), ("error", "protocol")]])
      return (.continue, vu, [])
    | true => do
      let response ← send program req prepared vu
      conclude script req name response vu

def RequestFlow.stop : RequestFlow → Option IterationOutcome
  | .continue => none
  | .abortIteration => some .completed
  | .stopVu => some .stopVu
  | .abortScenario => some .abortScenario
  | .abortTest reason => some (.abortTest reason)

/-! ## Choices and loops -/

/-- The choice a draw falls on: the first one whose weight exceeds what is left of it. -/
def walk (last : ℕ) : F64 → ℕ → List F64 → ℕ
  | _, _, [] => last
  | pick, i, weight :: weights =>
    let left := pick - weight
    if F64.lt left 0 then i else walk last left (i + 1) weights

def pickBranch (strategy : SwitchStrategy) (choices : List (CompiledChoice CompiledStep)) : Run ℕ :=
  match strategy with
  | .roundRobin => do
    let n ← ask .cursor
    return Nat.mod n choices.length
  | .uniform => do
    let i ← ask (.index choices.length)
    return Fin.val i
  | .weighted => do
    let weights := choices.map fun c => F64.max c.weight 0
    let total := weights.sum
    if F64.le total 0 then
      let i ← ask (.index choices.length)
      return Fin.val i
    else
      let pick ← ask (.draw total)
      return walk (choices.length - 1) (Subtype.val pick) 0 weights

def findCase {α : Type} (cases : List (String × α)) (default : α) (key : String) : α :=
  ((cases.find? fun c => c.1 = key).map (·.2)).getD default

def IterationOutcome.stop : IterationOutcome → Option IterationOutcome
  | .completed => none
  | outcome => some outcome

theorem stop_eq_none {o : IterationOutcome} : o.stop = none ↔ o = .completed := by
  cases o <;> simp [IterationOutcome.stop]

/-- Up to `n` rounds of a body: `enter` is what happens before a round, `again` what happens after
one that completed. -/
def rounds (body : VuContext → Run Result) (enter : ℕ → VuContext → Run (Bool × VuContext))
    (again : VuContext → Run (Bool × VuContext)) : ℕ → ℕ → VuContext → Run StepResult
  | 0, _, vu => return ⟨vu, [], none⟩
  | n + 1, i, vu => do
    let (entered, vu) ← enter i vu
    if entered then
      let r ← body vu
      match r.outcome.stop with
      | some outcome => return ⟨r.vu, r.trace, some outcome⟩
      | none => do
        let (more, vu) ← again r.vu
        if more then
          let rest ← rounds body enter again n (i + 1) vu
          return { rest with trace := r.trace ++ rest.trace }
        else return ⟨vu, r.trace, none⟩
    else return ⟨vu, [], none⟩

/-- A loop that only its number of rounds and its body end. -/
def always (vu : VuContext) : Run (Bool × VuContext) := return (true, vu)

def VuContext.pushGroup (vu : VuContext) (name : String) : VuContext :=
  { vu with groups := vu.groups ++ [name] }

def VuContext.popGroup (vu : VuContext) : VuContext := { vu with groups := vu.groups.dropLast }

def Result.asStep (r : Result) : StepResult := ⟨r.vu, r.trace, r.outcome.stop⟩

def inGroup (name : String) (body : VuContext → Run Result) (vu : VuContext) :
    Run StepResult := do
  let r ← (body (vu.pushGroup name)).relay (.within name)
  return { r.asStep with vu := r.vu.popGroup }

def once (body : VuContext → Run Result) (vu : VuContext) : Run StepResult := do
  let r ← body vu
  return r.asStep

/-! ## Parallel branches -/

def childContext (parent : VuContext) : VuContext := { parent with lastRequestFailed := false }

def merge (vu : VuContext) (children : List VuContext) : VuContext :=
  { vu with
    vars := children.foldl (fun vars child x => (child.vars x).or (vars x)) vu.vars
    lastRequestFailed := children.any (·.lastRequestFailed) }

def strongest : List IterationOutcome → IterationOutcome
  | [] => .completed
  | .abortTest reason :: _ => .abortTest reason
  | .abortScenario :: _ => .abortScenario
  | _ :: rest => strongest rest

/-- A branch, which has no result if the iteration is dropped while it waits. -/
def sever {α : Type} : Run α → Run (Option α)
  | .done a => .done (some a)
  | .ask q next => .ask q fun answer => sever (next answer)
  | .tell (.await point) next => .ask .cancelled fun dropped => match (dropped : Option F64) with
    | none => sever next
    | some elapsed => .tell (.emit (point.onDrop elapsed)) (.done none)
  | .tell o next => .tell o (sever next)

section Sever

variable {α : Type} {d : Run α} {P : α → Prop}

theorem every_sever (h : d.Every P) : (sever d).Every fun o => ∀ a ∈ o, P a := by
  induction d with
  | done a => simpa [sever, Dialogue.Every] using h
  | ask q next ih => exact fun answer => ih answer (h answer)
  | tell o next ih =>
    cases o with
    | await point =>
      intro dropped
      cases dropped with
      | none => exact ih h
      | some elapsed => exact fun _ => nofun
    | _ => exact ih h

theorem can_sever (h : d.Can P) : (sever d).Can fun o => ∃ a, o = some a ∧ P a := by
  induction d with
  | done a => exact ⟨a, rfl, h⟩
  | ask q next ih =>
    obtain ⟨answer, h⟩ := h
    exact ⟨answer, ih answer h⟩
  | tell o next ih =>
    cases o with
    | await point => exact ⟨none, ih h⟩
    | _ => exact ih h

end Sever

/-- Run branches, each from its own copy of the context; there are no results if the iteration is
dropped. -/
def runAll (vu : VuContext) : List (VuContext → Run Result) → Run (Option (List Result))
  | [] => return some []
  | branch :: rest => do
    tell .fork
    let r ← sever (branch (childContext vu))
    tell .join
    let others ← runAll vu rest
    return r.bind fun r => others.map (r :: ·)

def runEach (vu : VuContext) (branches : List (VuContext → Run Result)) : Run (List Result) := do
  let results ← runAll vu branches
  match results with
  | some results => return results
  | none => do
    pause vu
    let never ← ask .resumed
    return Empty.elim never

/-- What a parallel step makes of the results of its branches. -/
def joinBranches (vu : VuContext) (results : List Result) : StepResult :=
  ⟨merge vu (results.map (·.vu)), [.branches (results.map (·.trace))],
    (strongest (results.map (·.outcome))).stop⟩

section RunEach

variable {R : List Result → Prop} {b : VuContext → Run Result}
  {branches : List (VuContext → Run Result)}

theorem every_runEach : (runEach vu branches).Every R ↔
    (runAll vu branches).Every fun o => ∀ rs ∈ o, R rs := by
  unfold runEach
  rw [Dialogue.every_bind]
  refine ⟨fun h => h.mono fun o ho => ?_, fun h => h.mono fun o ho => ?_⟩
  · cases o with
    | some rs => simpa using ho
    | none => simp
  · cases o with
    | some rs => exact ho rs rfl
    | none => exact fun never => never.elim

theorem can_runEach : (runEach vu branches).Can R ↔
    (runAll vu branches).Can fun o => ∃ rs, o = some rs ∧ R rs := by
  unfold runEach
  rw [Dialogue.can_bind]
  refine ⟨fun h => h.mono fun o ho => ?_, fun h => h.mono ?_⟩
  · cases o with
    | some rs => exact ⟨rs, rfl, ho⟩
    | none =>
      obtain ⟨never, -⟩ := ho
      exact never.elim
  · rintro _ ⟨rs, rfl, hrs⟩
    exact hrs

theorem every_runEach_cons (h : (b (childContext vu)).Every fun r =>
    (runEach vu branches).Every fun rs => R (r :: rs)) : (runEach vu (b :: branches)).Every R := by
  refine every_runEach.2 (Dialogue.every_bind.2 (Dialogue.every_bind.2 ?_))
  refine (every_sever h).mono fun o ho => Dialogue.every_bind.2 ?_
  cases o with
  | none => exact Dialogue.every_bind.2 (Dialogue.every_of_forall fun _ _ => nofun)
  | some r =>
    refine Dialogue.every_bind.2 ((every_runEach.1 (ho r rfl)).mono fun others hothers => ?_)
    simpa using hothers

theorem can_runEach_cons (h : (b (childContext vu)).Can fun r =>
    (runEach vu branches).Can fun rs => R (r :: rs)) : (runEach vu (b :: branches)).Can R := by
  refine can_runEach.2 (Dialogue.can_bind.2 (Dialogue.can_bind.2 ((can_sever h).mono ?_)))
  rintro _ ⟨r, rfl, hr⟩
  refine Dialogue.can_bind.2 (Dialogue.can_bind.2 ((can_runEach.1 hr).mono ?_))
  rintro _ ⟨rs, rfl, hrs⟩
  exact ⟨r :: rs, rfl, hrs⟩

end RunEach

def runParallel (branches : List (VuContext → Run Result)) (vu : VuContext) :
    Run StepResult := do
  tell .reset
  let results ← runEach vu branches
  return joinBranches vu results

/-! ## Steps -/

mutual

def runSteps (program : ScenarioProgram) (script : Option Script) :
    List CompiledStep → VuContext → Run Result
  | [], vu => return ⟨vu, [], .completed⟩
  | step :: rest, vu => do
    let first ← runStep program script step vu
    match first.stop with
    | some outcome => return ⟨first.vu, .step step :: first.trace, outcome⟩
    | none => do
      let others ← runSteps program script rest first.vu
      return { others with trace := .step step :: first.trace ++ others.trace }

def runStep (program : ScenarioProgram) (script : Option Script) :
    CompiledStep → VuContext → Run StepResult
  | .request req, vu => do
    let (flow, vu, fired) ← runRequest program script req vu
    pauseIf (flow.stop.isNone && program.thinkTime) vu
    return ⟨vu, [.checked req fired], flow.stop⟩
  | .thinkTime, vu => do
    pause vu
    return ⟨vu, [], none⟩
  | .js call code, vu =>
    match script, call, code with
    | some engine, some name, _ => do
      let vu ← runRecorded .jsStep "js_step" engine (.call name) vu
      return ⟨vu, [], none⟩
    | some engine, none, some code => do
      let vu ← runRecorded .jsStep "js_step" engine (.eval code) vu
      return ⟨vu, [], none⟩
    | _, _, _ => return ⟨vu, [], none⟩
  | .group name steps, vu => inGroup name (runSteps program script steps) vu
  | .repeatStep times counter steps, vu =>
    rounds (runSteps program script steps)
      (fun i vu => always (vu.insert (counter.getD "index") (.number i))) always times 0 vu
  | .whileStep condition maxIterations steps, vu =>
    rounds (runSteps program script steps) (fun _ => evalConditionBool script condition) always
      maxIterations 0 vu
  | .ifStep condition then_ otherwise, vu => do
    let (holds, vu) ← evalConditionBool script condition vu
    if holds then once (runSteps program script then_) vu
    else once (runSteps program script otherwise) vu
  | .random strategy choices, vu =>
    if choices.isEmpty then return ⟨vu, [], none⟩
    else do
      let i ← pickBranch strategy choices
      match (runChoices program script choices)[i]? with
      | some (name, body) => inGroup (name.getD ("branch-" ++ toString i)) body vu
      | none => return ⟨vu, [], none⟩
  | .foreach items var index steps, vu => do
    let (list, vu) ← resolveItems script items vu
    rounds (runSteps program script steps)
      (fun i vu => always ((vu.insert var (list.getD i .null)).insert index (.number i))) always
      list.length 0 vu
  | .switch value cases default, vu => do
    let (key, vu) ← renderTemplate script value vu
    once (findCase (runCases program script cases) (runSteps program script default)
      (key.getD "")) vu
  | .during duration counter steps, vu => do
    let n ← ask (.rounds duration)
    rounds (runSteps program script steps) (fun i vu => always (vu.insert counter (.number i))) always
      (Subtype.val n) 0 vu
  | .retry times until_ backoff steps, vu =>
    rounds (runSteps program script steps)
      (fun i vu => do
        pauseIf (i ≠ 0 && backoff.isSome) vu
        tell .reset
        always { vu.insert "attempt" (.number i) with lastRequestFailed := false })
      (fun vu => match until_ with
        | some expr => do
          let (ok, vu) ← evalConditionBool script expr vu
          return (!ok, vu)
        | none => return (vu.lastRequestFailed, vu))
      (max times 1) 0 vu
  | .parallel branches, vu => runParallel (runBranches program branches) vu
  | .rendezvous _ _ _, vu => do
    pause vu
    return ⟨vu, [], none⟩

def runChoices (program : ScenarioProgram) (script : Option Script) :
    List (CompiledChoice CompiledStep) → List (Option String × (VuContext → Run Result))
  | [] => []
  | choice :: rest => runChoice program script choice :: runChoices program script rest

def runChoice (program : ScenarioProgram) (script : Option Script) :
    CompiledChoice CompiledStep → Option String × (VuContext → Run Result)
  | ⟨_, name, steps⟩ => (name, runSteps program script steps)

def runCases (program : ScenarioProgram) (script : Option Script) :
    List (String × List CompiledStep) → List (String × (VuContext → Run Result))
  | [] => []
  | case :: rest => runCase program script case :: runCases program script rest

def runCase (program : ScenarioProgram) (script : Option Script) :
    String × List CompiledStep → String × (VuContext → Run Result)
  | (key, steps) => (key, runSteps program script steps)

/-- Parallel branches have no script engine. -/
def runBranches (program : ScenarioProgram) :
    List (List CompiledStep) → List (VuContext → Run Result)
  | [] => []
  | branch :: rest => runSteps program none branch :: runBranches program rest

end

/-! ## The parts of the interpreter as lists of bodies -/

theorem runChoices_eq (program : ScenarioProgram) (script : Option Script)
    (choices : List (CompiledChoice CompiledStep)) : runChoices program script choices =
      choices.map fun c => (c.name, runSteps program script c.steps) := by
  induction choices with
  | nil => simp [runChoices]
  | cons c choices ih =>
    obtain ⟨weight, name, steps⟩ := c
    simp [runChoices, runChoice, ih]

theorem findCase_mem {α : Type} (cases : List (String × α)) (default : α) (key : String) :
    findCase cases default key = default ∨ ∃ c ∈ cases, c.2 = findCase cases default key := by
  unfold findCase
  cases h : cases.find? fun c => c.1 = key with
  | none => exact .inl rfl
  | some c => exact .inr ⟨c, List.mem_of_find?_eq_some h, rfl⟩

theorem findCase_runCases (program : ScenarioProgram) (script : Option Script)
    (cases : List (String × List CompiledStep))
    (default : List CompiledStep) (key : String) :
    findCase (runCases program script cases) (runSteps program script default) key =
      runSteps program script (findCase cases default key) := by
  induction cases with
  | nil => simp [runCases, findCase]
  | cons c cases ih =>
    obtain ⟨name, steps⟩ := c
    simp only [findCase] at ih
    by_cases h : name = key
    · simp [findCase, runCases, runCase, h]
    · simp [findCase, runCases, runCase, h, ih]

theorem runBranches_eq (program : ScenarioProgram) (branches : List (List CompiledStep)) :
    runBranches program branches = branches.map (runSteps program none) := by
  induction branches with
  | nil => simp [runBranches]
  | cons b branches ih => simp [runBranches, ih]

/-! ## Steps inside steps -/

@[simp]
def CompiledStep.bodies : CompiledStep → List (List CompiledStep)
  | .request _ | .thinkTime | .js _ _ | .rendezvous _ _ _ => []
  | .group _ steps | .repeatStep _ _ steps | .whileStep _ _ steps | .foreach _ _ _ steps
  | .during _ _ steps | .retry _ _ _ steps => [steps]
  | .ifStep _ then_ otherwise => [then_, otherwise]
  | .random _ choices => choices.map (·.steps)
  | .switch _ cases default => default :: cases.map (·.2)
  | .parallel branches => branches

theorem sizeOf_body_lt {s : CompiledStep} {body : List CompiledStep} (h : body ∈ s.bodies) :
    sizeOf body < sizeOf s := by
  cases s <;> simp only [CompiledStep.bodies, List.mem_cons, List.not_mem_nil, or_false,
    List.mem_map] at h <;> simp
  case group | repeatStep | whileStep | foreach | during | retry => subst h; omega
  case ifStep => rcases h with rfl | rfl <;> omega
  case random =>
    obtain ⟨⟨weight, name, steps⟩, hmem, rfl⟩ := h
    have := List.sizeOf_lt_of_mem hmem
    simp at this ⊢
    omega
  case switch =>
    rcases h with rfl | ⟨⟨key, steps⟩, hmem, rfl⟩
    · omega
    · have := List.sizeOf_lt_of_mem hmem
      simp at this ⊢
      omega
  case parallel =>
    have := List.sizeOf_lt_of_mem h
    omega

/-- Induction on lists of steps: a list inherits a property from its rest and from the lists inside
its first step. -/
theorem steps_induction {P : List CompiledStep → Prop} (nil : P [])
    (cons : ∀ s rest, (∀ body ∈ s.bodies, P body) → P rest → P (s :: rest)) :
    ∀ steps, P steps
  | [] => nil
  | s :: rest => cons s rest
    (fun body h =>
      have := sizeOf_body_lt h
      steps_induction nil cons body)
    (steps_induction nil cons rest)
termination_by steps => sizeOf steps
decreasing_by all_goals simp <;> omega

/-! ## Iterations -/

def VuContext.beginIteration (vu : VuContext) : VuContext :=
  { vu with iteration := vu.iteration + 1 }

def runOnStart (program : ScenarioProgram) (script : Option Script) (vu : VuContext) :
    Run (VuContext × List Event) :=
  match program.onStart, script with
  | some onStart, some engine =>
    if vu.iteration = 1 ∧ onStart ∈ engine.functions then do
      let vu ← runRecorded .onStart "on_start" engine (.call onStart) vu
      return (vu, [.called onStart])
    else return (vu, [])
  | _, _ => return (vu, [])

/-- An `exec` function that fails counts as a failed request. -/
def recordExec (exec : String) (value : Except String Json) (vu : VuContext) : Run Unit :=
  match value with
  | .ok _ => return ()
  | .error message => do
    tell (.emit [failureSample vu [("scenario_fn", exec)]])
    recordException vu "exec" message

def runExec (program : ScenarioProgram) (script : Option Script) (r : Result) : Run Result :=
  match r.outcome, program.exec, script with
  | .completed, some exec, some engine => do
    let (value, vu) ← runScript .exec engine (.call exec) r.vu
    recordExec exec value vu
    return { r with vu, trace := r.trace ++ [.called exec] }
  | .completed, some exec, none =>
    return { r with outcome := .abortTest ("scenario `" ++ program.name ++
      "` requires JS function `" ++ exec ++ "` but no script engine is configured") }
  | _, _, _ => return r

@[simp] theorem every_recordExec {exec : String} {value : Except String Json} :
    (recordExec exec value vu).Every P ↔ P () := by cases value <;> exact Iff.rfl

@[simp] theorem can_recordExec {exec : String} {value : Except String Json} :
    (recordExec exec value vu).Can P ↔ P () := by cases value <;> exact Iff.rfl

def recordIteration (vu : VuContext) : Run Unit := do
  let elapsed ← ask .elapsed
  tell (.emit [vu.sample .iterations (.fin 1) [], vu.sample .iterationDuration elapsed []])

@[simp] theorem every_recordIteration : (recordIteration vu).Every P ↔ P () :=
  ⟨fun h => h (0 : F64), fun h _ => h⟩

@[simp] theorem can_recordIteration : (recordIteration vu).Can P ↔ P () :=
  ⟨fun ⟨_, h⟩ => h, fun h => ⟨(0 : F64), h⟩⟩

def runIteration (program : ScenarioProgram) (script : Option Script) (vu : VuContext) :
    Run Result := do
  tell .beginIteration
  let (vu, started) ← runOnStart program script vu.beginIteration
  let r ← runSteps program script program.steps vu
  let r ← runExec program script { r with trace := started ++ r.trace }
  recordIteration r.vu
  return r

/-! ## Transcripts -/

abbrev Entry := Dialogue.Entry Query Query.Answer Output

abbrev Transcript := List Entry

/-- The executor drops an iteration at a point where it awaits something. -/
def Output.IsAwait : Output → Prop
  | .await _ => True
  | _ => False

/-- What is emitted at an entry of a transcript: a dropped request is recorded as cancelled, so long
after it began. -/
def emittedAt (elapsed : F64) : Entry → List Emission
  | .told (.emit emissions) => emissions
  | .cut (.await point) => point.onDrop elapsed
  | _ => []

def emitted (elapsed : F64) (t : Transcript) : List Emission := t.flatMap (emittedAt elapsed)

end Loadr.Flow
