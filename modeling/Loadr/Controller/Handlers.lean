import Loadr.Lib.Tasks
import Loadr.Controller.Run

/-!
# The controller's handlers

The functions of `controller.rs` as programs of tasks that share `Inner`.  An `Op` is what a handler
does under one acquisition of a lock, or between two of them; a lookup in the run table is joined to
the section after it, since runs are never removed.

The logged `Event`s have no influence on the controller; they are what the results are stated about.
-/

namespace Loadr

inductive TaskId
  | session (session : ℕ)
  | submit (runId : String)
  | control (call : ℕ)
  | barrier (runId : String)
  | ticker (runId : String)
  | sweeper
deriving DecidableEq

/-- What an uplink message is about. -/
inductive Subject
  | delta (runId : String)
  | terminal (runId : String)
  | other
deriving DecidableEq, Repr

def AgentMsg.subject {β : Type} : AgentMsg β → Subject
  | .metrics runId _ => .delta runId
  | .event ev => if ev.kind.isTerminal then .terminal ev.runId else .other
  | _ => .other

/-- An admitted uplink message: who sent it, over which session, at which position, about what. -/
structure Received where
  agentId : String
  incarnation : String
  session : ℕ
  seq : ℕ
  subject : Subject
deriving DecidableEq, Repr

inductive Dropped
  | unknownRun
  | undecodable
  | frozen
deriving DecidableEq, Repr

inductive Event
  | registered (agentId : String) (session : ℕ) (resumeRunId : String) (restarted : Bool)
  /-- `resume_run` found the run settled. -/
  | refused (agentId runId : String)
  | admitted (rc : Received)
  | applying (rc : Received)
  | merged (rc : Received) (runId : String)
  | dropped (rc : Received) (runId : String) (why : Dropped)
  | applied (rc : Received)
  | ready (runId agentId : String) (partitionIndex : ℕ)
  | prepFailure (runId : String)
  | barrierSpawned (runId : String)
  | timedOut (runId : String)
  /-- The barrier committed the start of these agents, in this state and with this failure on
  record. -/
  | committed (runId : String) (startUnixMs : ℤ) (state : RunState)
    (failure : Option (String × RunState)) (assigned : List String)
  /-- The start broadcast has been sent to every target. -/
  | broadcast (runId : String)
  | sent (session : ℕ) (item : DownItem)
  | finalized (runId : String) (verdict : RunState)
  | controlReturned (commandId : ℕ) (expected : Finset String) (ok : Bool)
deriving DecidableEq

structure ControlCall where
  runId : String
  action : ControlAction
  scenario : String
  vusTotal : Option ℕ
deriving DecidableEq, Repr

/-- What the caller of `record_prep_failure` does when the run has already left `Pending`. -/
inductive AfterStart
  | nothing
  | restarted (agentId : String)
  | lost (newly : List String)
  | control (call : ControlCall)
deriving DecidableEq, Repr

inductive Op (M : Metering)
  -- register_agent
  | registerAgent (reg : Register) (session : ℕ)
  | terminateParticipation (agentId runId : String)
  | restartedState (agentId runId : String)
  | restartedDone (agentId runId : String)
  | restartedLost (agentId runId : String)
  | replayAssignment (agentId runId : String)
  | replayDone (agentId runId : String)
  | replayLost (agentId runId : String)
  | resumeRun (agentId runId : String)
  | resumeDone (agentId runId : String)
  | resumeLost (agentId runId : String)
  | resumePhase (agentId runId : String)
  | resumeStart (agentId runId : String)
  | resumeSender (agentId runId : String) (startUnixMs : ℤ)
  -- sending
  | sendAssignment (agentId runId : String)
  | killAgentRun (agentId runId : String)
  | send (session : ℕ) (item : DownItem)
  -- the pump of a session
  | pump (agentId : String) (session : ℕ)
  | admitMessage (agentId : String) (session : ℕ) (msg : AgentMessage (AgentMsg M.Bytes))
  | applyAgentMessage (rc : Received) (msg : AgentMsg M.Bytes)
  | applied (rc : Received)
  | markDisconnected (agentId : String) (session : ℕ)
  -- the metrics arm
  | deltaName (rc : Received) (runId : String) (delta : M.Delta)
  | deltaState (rc : Received) (runId : String) (delta : M.Delta)
  | deltaContributing (rc : Received) (runId : String) (delta : M.Delta)
  | deltaMerge (rc : Received) (runId : String) (delta : M.Delta)
  | deltaLost (rc : Received) (runId : String)
  | deltaDone (rc : Received) (runId : String) (lost : Bool)
  | deltaRelease (runId : String)
  -- run events and completion
  | markReady (agentId runId : String) (partitionIndex : ℕ)
  | eventStarted (runId : String)
  | recordPrepFailure (runId reason : String) (verdict : RunState) (after : AfterStart)
  | notifyPrep (runId : String)
  | noteAbort (runId reason : String)
  | zeroLiveGauges (agentId runId : String)
  | markDone (agentId runId : String) (kind : EventKind)
  | checkState (runId : String)
  | checkScan (runId : String)
  | finalize (runId : String) (verdict : RunState)
  | releaseReservations (runId : String)
  | stopRun (runId : String)
  -- the liveness sweep
  | sweep
  | sweepRuns (lostIds : List String)
  | sweepRun (runId : String) (lostIds : List String)
  | sweepFilter (runId : String) (lostIds newly : List String)
  | sweepLost (agentId runId : String)
  | sweepLostEver (agentId runId : String)
  -- submission and the preparation barrier
  | reserveAgents (sub : Submission M)
  | insertRun (sub : Submission M) (selected : List (String × ℕ))
  | spawnBarrier (runId : String) (startBarrier : ℕ)
  | barrierCheck (runId : String) (startBarrier : ℕ)
  | barrierPark (runId : String) (startBarrier : ℕ)
  | barrierTimeout (runId : String)
  | broadcastStart (runId : String) (startUnixMs : ℤ)
  | broadcastDone (runId : String)
  | tick (runId : String)
  | publishLiveSnapshot (runId : String)
  | tickState (runId : String)
  -- control commands
  | controlRun (call : ControlCall)
  | controlState (call : ControlCall)
  | controlTargets (call : ControlCall)
  | controlInsert (call : ControlCall) (targets : List (String × ℕ))
  | controlSend (agentId : String) (session : ℕ) (c : Control)
  | controlWait (call : ControlCall) (commandId : ℕ)
  | controlPark (call : ControlCall) (commandId : ℕ)
  | controlTimeout (call : ControlCall) (commandId : ℕ)
  | controlFinish (call : ControlCall) (commandId : ℕ)
  | setPaused (runId : String) (paused : Option Bool)
  | setStopping (runId : String)

inductive Inbound (β : Type)
  | message (msg : AgentMessage (AgentMsg β))
  | ended

/-- What the environment contributes to a step. -/
structure Env (M : Metering) where
  now : ℕ := 0
  room : Bool := true
  timeout : Bool := false
  /-- The order in which the run and the agent table are iterated. -/
  runOrder : List String := []
  agentOrder : List String := []
  inbound : Inbound M.Bytes := .ended

namespace Controller

variable {M : Metering}

abbrev Outcome (M : Metering) := Tasks.Outcome (Inner M) TaskId (Op M) Event

/-- A section that reads or changes one run; without the run there is nothing to do. -/
def withRun (inner : Inner M) (runId : String) (f : ControllerRun M → Outcome M) : Outcome M :=
  match inner.runs[runId]? with
  | none => { shared := inner }
  | some run => f run

/-- A section under the run's state lock; it has to wait while another task holds the lock. -/
def withState (inner : Inner M) (runId : String) (f : ControllerRun M → Outcome M) :
    Option (Outcome M) :=
  match inner.runs[runId]? with
  | none => some { shared := inner }
  | some run => if run.stateHeld then none else some (f run)

def stopMessage (runId : String) : DownItem :=
  .msg (.control { runId := runId, action := .stop, scenario := "", value := 0, commandId := 0 })

def killMessage (runId : String) : DownItem :=
  .msg (.control { runId := runId, action := .kill, scenario := "", value := 0, commandId := 0 })

/-- Give a run up: note why, tell its agents to stop, then settle it. -/
def giveUp (runId reason : String) (verdict : RunState) : List (Op M) :=
  [.noteAbort runId reason, .stopRun runId, .finalize runId verdict]

/-- What follows from a lost agent under the run's loss policy. -/
def lossPolicy (runId reason : String) : OnAgentLoss → List (Op M)
  | .keepGoing => [.checkState runId]
  | .abort => giveUp runId reason .failed

def afterStart (runId : String) (policy : OnAgentLoss) : AfterStart → List (Op M)
  | .nothing => []
  | .restarted agentId => [.restartedState agentId runId]
  | .lost newly => lossPolicy runId ("agent(s) lost: " ++ ", ".intercalate newly) policy
  | .control call => [.controlTargets call]

/-- What the sweep does to a run once it knows its newly lost agents.  A loss before the start is a
preparation failure; the loss policies govern a running fleet. -/
def newlyLostOps (runId : String) (newly : List String) : List (Op M) :=
  if newly.isEmpty then []
  else (newly.flatMap fun id =>
      [.sweepLost id runId, .sweepLostEver id runId, .zeroLiveGauges id runId]) ++
    [.recordPrepFailure runId ("agent(s) lost during preparation: " ++ ", ".intercalate newly)
      .failed (.lost newly)]

/-- The operations `register_agent` goes through after the agents lock. -/
def registrationOps (reg : Register) (session : ℕ) (r : Registration) : List (Op M) :=
  (match r.superseded with
    | some previous => [.send previous.session .aborted]
    | none => []) ++
  (match r.followup with
    | .terminateParticipation runId => [.terminateParticipation reg.agentId runId]
    | .maybeReplayAssignment runId => [.replayAssignment reg.agentId runId]
    | .none => []) ++
  -- a fresh process cannot hold a run in memory; its claim is not credible
  (if reg.resumeRunId.isEmpty || r.restarted then []
    else [.resumeRun reg.agentId reg.resumeRunId]) ++
  [.pump reg.agentId session]

/-- The operations of `handle_run_event` after the lookup. -/
def runEventOps (agentId : String) (ev : RunEvent) : List (Op M) :=
  match ev.kind with
  | .started => [.eventStarted ev.runId]
  | .prepFailed =>
    [.recordPrepFailure ev.runId ("preparation failed on agent " ++ agentId ++ ": " ++ ev.detail)
      .failed .nothing]
  | .finished =>
    [.zeroLiveGauges agentId ev.runId, .markDone agentId ev.runId ev.kind, .checkState ev.runId]
  | .aborted | .failed =>
    (if ev.detail.isEmpty then [] else [.noteAbort ev.runId ev.detail]) ++
    [.zeroLiveGauges agentId ev.runId, .markDone agentId ev.runId ev.kind, .checkState ev.runId]
  | .other _ => []

/-- `apply_agent_message` up to its first run lock. -/
def applyAgentMessage (inner : Inner M) (rc : Received) : AgentMsg M.Bytes → Outcome M
  | .register => { shared := inner, events := [.applying rc] }
  | .heartbeat activeVus =>
    { shared := { inner with agents := inner.agents.setActiveVus rc.agentId activeVus }
      events := [.applying rc] }
  | .metrics runId deltaJson =>
    match inner.runs[runId]? with
    | none => { shared := inner, events := [.dropped rc runId .unknownRun, .applying rc] }
    | some _ =>
      match M.decode deltaJson with
      | none => { shared := inner, events := [.dropped rc runId .undecodable, .applying rc] }
      | some delta =>
        { shared := inner, ops := [.deltaName rc runId delta], events := [.applying rc] }
  | .event ev =>
    { shared := inner
      ops := if inner.runs.contains ev.runId then runEventOps rc.agentId ev else []
      events := [.applying rc] }
  | .controlAck ack =>
    { shared := inner.modifyRun ack.runId fun run => run.acknowledge rc.agentId ack
      events := [.applying rc] }
  | .assignmentReady runId partitionIndex =>
    { shared := inner
      ops :=
        match inner.runs[runId]? with
        | none => [.killAgentRun rc.agentId runId]
        | some run =>
          if run.assigned.findIdx? (· == rc.agentId) = some partitionIndex then
            [.markReady rc.agentId runId partitionIndex]
          else []
      events := [.applying rc] }

def barrierCheck (inner : Inner M) (runId : String) (run : ControllerRun M)
    (startBarrier now : ℕ) : Outcome M :=
  if run.state.isTerminal then { shared := inner }
  else
    match run.prep.failure with
    | some (reason, verdict) => { shared := inner, ops := giveUp runId reason verdict }
    | none =>
      if run.allReady then
        let startUnixMs : ℤ := now + startBarrier
        { shared := inner.modifyRun runId fun run => run.commitStart startUnixMs now
          ops := [.broadcastStart runId startUnixMs]
          events := [.committed runId startUnixMs run.state run.prep.failure run.assigned] }
      else { shared := inner, ops := [.barrierPark runId startBarrier] }

def waiting (run : ControllerRun M) : List String :=
  run.assigned.filter fun id => run.prep.phases[id]? != some .ready

/-- Split `total` virtual users across `agents`, remainder to the lowest indices. -/
def scaleShares (total agents : ℕ) : List ℕ :=
  (List.range agents).map fun i => total / agents + if i < total % agents then 1 else 0

def controlOps (call : ControlCall) (commandId : ℕ) (targets : List (String × ℕ)) : List (Op M) :=
  let shares := call.vusTotal.map fun total => scaleShares total targets.length
  targets.mapIdx fun index target =>
    .controlSend target.1 target.2
      { runId := call.runId, action := call.action, scenario := call.scenario
        value := ((shares.bind fun s => s[index]?).getD 0), commandId := commandId }

/-- Whether a control command has all its answers; a forgotten command waits for none. -/
def controlComplete (run : ControllerRun M) (commandId : ℕ) : Bool :=
  run.pendingControls[commandId]?.all fun pending =>
    decide (pending.expected.card ≤ pending.responses.size)

/-- What a control call does once its command is complete: report the first refusals, or record the
new state. -/
def controlVerdict (call : ControlCall) (ok : Bool) : List (Op M) :=
  match call.action with
  | .pause => [.setPaused call.runId (if ok then some true else none)]
  | .resume => [.setPaused call.runId (if ok then some false else none)]
  | .stop | .kill => if ok then [.setStopping call.runId] else []
  | _ => []

def deliver (inner : Inner M) (room : Bool) (session : ℕ) (item : DownItem) : Outcome M :=
  if room then { shared := inner.enqueue session item, events := [.sent session item] }
  else { shared := inner }

/-- The acknowledgement of `admit`, dropped when the channel is full. -/
def offerAck (inner : Inner M) (room : Bool) (session : ℕ) : Option ℕ → Outcome M
  | some seq => deliver inner room session (.msg (.uplinkAck seq))
  | none => { shared := inner }

def admitMessage (env : Env M) (inner : Inner M) (agentId : String) (session : ℕ)
    (msg : AgentMessage (AgentMsg M.Bytes)) : Outcome M :=
  let r := inner.agents.admitMessage agentId session msg.seq env.now
  let acked := offerAck { inner with agents := r.2 } env.room session r.1.ack
  let rc : Received :=
    { agentId := agentId, session := session, seq := msg.seq, subject := msg.msg.subject
      incarnation := (inner.agents[agentId]?.map (·.incarnation)).getD "" }
  match r.1.verdict with
  | .apply =>
    { acked with
      ops := [.applyAgentMessage rc msg.msg, .applied rc, .pump agentId session]
      events := acked.events ++ [.admitted rc] }
  | .duplicate => { acked with ops := [.pump agentId session] }
  | .stale => { acked with ops := [.markDisconnected agentId session] }

/-- The registration of a session and of the resources its followups need. -/
def registerAgent (env : Env M) (inner : Inner M) (reg : Register) (session : ℕ) : Outcome M :=
  let r := inner.agents.register reg session env.now
  { shared := { inner with agents := r.2 }
    ops := registrationOps reg session r.1
    events := [.registered reg.agentId session reg.resumeRunId r.1.restarted] }

/-- The keys of a hash table in the order the environment iterates them. -/
def iterated (order keys : List String) : List String :=
  if order.isPerm keys then order else keys

/-- What executing an operation does; `none` while it has to wait. -/
def exec (env : Env M) (inner : Inner M) : Op M → Option (Outcome M)
  -- register_agent
  | .registerAgent reg session => some (registerAgent env inner reg session)
  | .terminateParticipation agentId runId =>
    some { shared := inner
           ops := [.recordPrepFailure runId
             ("agent " ++ agentId ++ " restarted during preparation") .failed
             (.restarted agentId)] }
  | .restartedState agentId runId => withState inner runId fun run =>
    { shared := inner, ops := if run.state.isTerminal then [] else [.restartedDone agentId runId] }
  | .restartedDone agentId runId => some <| withRun inner runId fun run =>
    { shared := inner
      ops := if run.done.contains agentId then [] else [.restartedLost agentId runId] }
  | .restartedLost agentId runId => some <| withRun inner runId fun run =>
    { shared := inner.modifyRun runId fun run => { run with lost := insert agentId run.lost }
      ops := lossPolicy runId ("agent restarted: " ++ agentId) run.onAgentLoss }
  | .replayAssignment agentId runId => withState inner runId fun run =>
    { shared := inner
      ops := if run.state.isTerminal || run.prep.phases[agentId]? != some .assigned then []
        else [.replayDone agentId runId] }
  | .replayDone agentId runId => some <| withRun inner runId fun run =>
    { shared := inner
      ops := if run.done.contains agentId then [] else [.replayLost agentId runId] }
  | .replayLost agentId runId => some <| withRun inner runId fun run =>
    { shared := inner
      ops := if agentId ∈ run.lost then [] else [.sendAssignment agentId runId] }
  | .resumeRun agentId runId =>
    match inner.runs[runId]? with
    | none => some { shared := inner, ops := [.killAgentRun agentId runId] }
    | some run =>
      if agentId ∉ run.assigned then some { shared := inner }
      else if run.stateHeld then none
      else if run.state.isTerminal then some
        { shared := inner, ops := [.killAgentRun agentId runId]
          events := [.refused agentId runId] }
      else some { shared := inner, ops := [.resumeDone agentId runId] }
  | .resumeDone agentId runId => some <| withRun inner runId fun run =>
    { shared := inner
      ops := if run.done.contains agentId then [.killAgentRun agentId runId]
        else [.resumeLost agentId runId] }
  | .resumeLost agentId runId => some
    { shared := inner.modifyRun runId fun run => { run with lost := run.lost.erase agentId }
      ops := [.resumePhase agentId runId] }
  | .resumePhase agentId runId => some <| withRun inner runId fun run =>
    { shared := inner
      ops := match run.prep.phases[agentId]? with
        | some .assigned => [.sendAssignment agentId runId]
        | some .ready => [.resumeStart agentId runId]
        | none => [] }
  | .resumeStart agentId runId => some <| withRun inner runId fun run =>
    { shared := inner
      ops := match run.startUnixMs with
        | some startUnixMs => [.resumeSender agentId runId startUnixMs]
        | none => [] }
  | .resumeSender agentId runId startUnixMs => some
    { shared := inner
      ops := match inner.agentSender agentId with
        | some session => [.send session (.msg (.start runId startUnixMs))]
        | none => [] }
  -- sending
  | .sendAssignment agentId runId => some <| withRun inner runId fun run =>
    { shared := inner
      ops := match run.assignment runId agentId, inner.agentSender agentId with
        | some a, some session => [.send session (.msg (.assignment a))]
        | _, _ => [] }
  | .killAgentRun agentId runId => some
    { shared := inner
      ops := match inner.agentSender agentId with
        | some session => [.send session (killMessage runId)]
        | none => [] }
  | .send session item => some (deliver inner env.room session item)
  -- the pump of a session
  | .pump agentId session => some
    { shared := inner
      ops := match env.inbound with
        | .message msg => [.admitMessage agentId session msg]
        | .ended => [.markDisconnected agentId session] }
  | .admitMessage agentId session msg => some (admitMessage env inner agentId session msg)
  | .applyAgentMessage rc msg => some (applyAgentMessage inner rc msg)
  | .applied rc => some { shared := inner, events := [.applied rc] }
  | .markDisconnected agentId session => some
    { shared := { inner with agents := inner.agents.markDisconnected agentId session } }
  -- the metrics arm
  | .deltaName rc runId delta =>
    let name := (inner.agents[rc.agentId]?.map (·.name)).getD rc.agentId
    some { shared := inner
           ops := [.deltaState rc runId (M.addAgentIdentity delta name rc.agentId)] }
  | .deltaState rc runId delta => withState inner runId fun run =>
    if run.state.isTerminal then { shared := inner, events := [.dropped rc runId .frozen] }
    else
      { shared := inner.modifyRun runId fun run => { run with stateHeld := true }
        ops := [.deltaContributing rc runId delta] }
  | .deltaContributing rc runId delta => some
    { shared := inner.modifyRun runId fun run =>
        { run with contributing := insert rc.agentId run.contributing }
      ops := [.deltaMerge rc runId delta] }
  | .deltaMerge rc runId delta => some
    { shared := inner.modifyRun runId fun run => { run with agg := M.mergeDelta run.agg delta }
      ops := [.deltaLost rc runId]
      events := [.merged rc runId] }
  | .deltaLost rc runId => some <| withRun inner runId fun run =>
    { shared := inner, ops := [.deltaDone rc runId (decide (rc.agentId ∈ run.lost))] }
  | .deltaDone rc runId lost => some <| withRun inner runId fun run =>
    { shared := inner
      ops := (if lost || run.done.contains rc.agentId then [.zeroLiveGauges rc.agentId runId]
        else []) ++ [.deltaRelease runId] }
  | .deltaRelease runId => some
    { shared := inner.modifyRun runId fun run => { run with stateHeld := false } }
  -- run events and completion
  | .markReady agentId runId partitionIndex => withState inner runId fun run =>
    if run.state.isTerminal then { shared := inner, ops := [.killAgentRun agentId runId] }
    else
      { shared := inner.modifyRun runId fun run =>
          { run with prep := { run.prep with phases := run.prep.phases.insert agentId .ready } }
        ops := [.notifyPrep runId]
        events := [.ready runId agentId partitionIndex] }
  | .eventStarted runId => withState inner runId fun run =>
    { shared := if run.state = .pending then
        inner.modifyRun runId fun run => { run with state := .running } else inner }
  | .recordPrepFailure runId reason verdict after => withState inner runId fun run =>
    if run.state = .pending then
      { shared := inner.modifyRun runId fun run => run.recordPrepFailure reason verdict
        ops := [.notifyPrep runId]
        events := [.prepFailure runId] }
    else { shared := inner, ops := afterStart runId run.onAgentLoss after }
  | .notifyPrep runId => some
    { shared := inner.modifyRun runId fun run => { run with prepNotify := true } }
  | .noteAbort runId reason => some
    { shared := inner.modifyRun runId fun run => run.noteAbort reason }
  | .zeroLiveGauges agentId runId => some
    { shared := inner.modifyRun runId fun run =>
        { run with agg := M.zeroLiveGauges run.agg agentId } }
  | .markDone agentId runId kind => some
    { shared := inner.modifyRun runId fun run => { run with done := run.done.insert agentId kind } }
  | .checkState runId => withState inner runId fun run =>
    { shared := inner, ops := if run.state.isTerminal then [] else [.checkScan runId] }
  | .checkScan runId => some <| withRun inner runId fun run =>
    { shared := inner
      ops := match run.completion with
        | some verdict => [.finalize runId verdict]
        | none => [] }
  | .finalize runId verdict => withState inner runId fun run =>
    if run.state.isTerminal then { shared := inner }
    else
      { shared := inner.modifyRun runId fun run => run.finalize verdict env.now
        ops := [.releaseReservations runId, .notifyPrep runId]
        events := [.finalized runId verdict] }
  | .releaseReservations runId => some <| withRun inner runId fun run =>
    { shared := { inner with agents := inner.agents.releaseReservations runId run.assigned } }
  | .stopRun runId => some <| withRun inner runId fun run =>
    { shared := inner
      ops := (inner.runSenders run).map fun target => .send target.2 (stopMessage runId) }
  -- the liveness sweep
  | .sweep =>
    let lostIds := iterated env.agentOrder (inner.agents.stale inner.liveness env.now)
    some { shared := inner
           ops := (if lostIds.isEmpty then [] else [.sweepRuns lostIds]) ++ [.sweep] }
  | .sweepRuns lostIds => some
    { shared := inner
      ops := (iterated env.runOrder inner.runs.keys).map fun runId => .sweepRun runId lostIds }
  | .sweepRun runId lostIds => withState inner runId fun run =>
    { shared := inner
      ops := if run.state.isTerminal then [] else [.sweepFilter runId lostIds []] }
  | .sweepFilter runId (id :: lostIds) newly => some <| withRun inner runId fun run =>
    { shared := inner
      ops := [.sweepFilter runId lostIds
        (if id ∈ run.assigned ∧ run.settled id = false then newly ++ [id] else newly)] }
  | .sweepFilter runId [] newly => some { shared := inner, ops := newlyLostOps runId newly }
  | .sweepLost agentId runId => some
    { shared := inner.modifyRun runId fun run => { run with lost := insert agentId run.lost } }
  | .sweepLostEver agentId runId => some
    { shared := inner.modifyRun runId fun run =>
        { run with lostEver := insert agentId run.lostEver } }
  -- submission and the preparation barrier
  | .reserveAgents sub =>
    match inner.agents.reserveAgents inner.liveness env.now sub.opts.agentFilter sub.runId with
    | none => some { shared := inner }
    | some (selected, agents) =>
      some { shared := { inner with agents := agents }, ops := [.insertRun sub selected] }
  | .insertRun sub selected =>
    let run := ControllerRun.submitted sub (selected.map (·.1)) env.now
    some { shared := { inner with runs := inner.runs.insert sub.runId run }
           ops := (selected.filterMap fun target =>
               (run.assignment sub.runId target.1).map fun a =>
                 .send target.2 (.msg (.assignment a))) ++
             [.spawnBarrier sub.runId sub.opts.startBarrier] }
  | .spawnBarrier runId startBarrier => some
    { shared := inner
      spawned := [(.barrier runId, [.barrierCheck runId startBarrier])]
      events := [.barrierSpawned runId] }
  | .barrierCheck runId startBarrier => withState inner runId fun run =>
    barrierCheck inner runId run startBarrier env.now
  | .barrierPark runId startBarrier =>
    match inner.runs[runId]? with
    | none => none
    | some run =>
      if run.prepNotify then some
        { shared := inner.modifyRun runId fun run => { run with prepNotify := false }
          ops := [.barrierCheck runId startBarrier] }
      else if env.timeout then some
        { shared := inner, ops := [.barrierTimeout runId], events := [.timedOut runId] }
      else none
  | .barrierTimeout runId => some <| withRun inner runId fun run =>
    { shared := inner
      ops := giveUp runId
        ("preparation timed out waiting for: " ++ ", ".intercalate (waiting run)) .failed }
  | .broadcastStart runId startUnixMs => some <| withRun inner runId fun run =>
    { shared := inner
      ops := ((inner.runSenders run).map fun target =>
          .send target.2 (.msg (.start runId startUnixMs))) ++ [.broadcastDone runId] }
  | .broadcastDone runId => some
    { shared := inner
      spawned := [(.ticker runId, [.tick runId])]
      events := [.broadcast runId] }
  | .tick runId => some
    { shared := inner, ops := [.publishLiveSnapshot runId, .tickState runId] }
  | .publishLiveSnapshot runId => withState inner runId fun run =>
    { shared := if run.state.isTerminal then inner
        else inner.modifyRun runId fun run => run.publishLiveSnapshot env.now }
  | .tickState runId => withState inner runId fun run =>
    { shared := inner, ops := if run.state.isTerminal then [] else [.tick runId] }
  -- control commands
  | .controlRun call =>
    some { shared := inner
           ops := if !inner.runs.contains call.runId then []
             else if call.action.isStop then
               [.recordPrepFailure call.runId "run stopped before start" .aborted (.control call)]
             else [.controlState call] }
  | .controlState call => withState inner call.runId fun run =>
    { shared := inner, ops := if run.state = .pending then [] else [.controlTargets call] }
  | .controlTargets call => some <| withRun inner call.runId fun run =>
    let targets := inner.runSenders run
    { shared := inner
      ops := if targets.isEmpty then []
        else if call.action = .scale ∧ call.scenario ∉ run.externallyControlled then []
        else [.controlInsert call targets] }
  | .controlInsert call targets =>
    let commandId := inner.controlCounter + 1
    let pending : PendingControl :=
      { expected := (targets.map (·.1)).toFinset, responses := ∅, action := call.action
        scenario := call.scenario, notify := false }
    let inner := { inner with controlCounter := commandId }
    some { shared := inner.modifyRun call.runId fun run =>
             { run with pendingControls := run.pendingControls.insert commandId pending }
           ops := controlOps call commandId targets ++ [.controlWait call commandId] }
  | .controlSend agentId session c =>
    if env.room then some (deliver inner true session (.msg (.control c)))
    else some
      { shared := inner.modifyRun c.runId fun run =>
          { run with pendingControls := run.pendingControls.modify c.commandId fun pending =>
            { pending with
              responses :=
                pending.responses.insert agentId (.error "could not deliver command") } } }
  | .controlWait call commandId => some <| withRun inner call.runId fun run =>
    { shared := inner
      ops := if controlComplete run commandId then [.controlFinish call commandId]
        else [.controlPark call commandId] }
  | .controlPark call commandId =>
    match inner.runs[call.runId]?.bind fun run => run.pendingControls[commandId]? with
    | none => none
    | some pending =>
      if pending.notify then some
        { shared := inner.modifyRun call.runId fun run =>
            { run with pendingControls := run.pendingControls.modify commandId fun pending =>
              { pending with notify := false } }
          ops := [.controlWait call commandId] }
      else if env.timeout then some { shared := inner, ops := [.controlTimeout call commandId] }
      else none
  | .controlTimeout call commandId => some <| withRun inner call.runId fun run =>
    { shared := inner.modifyRun call.runId fun run =>
        { run with pendingControls := run.pendingControls.erase commandId }
      ops := controlVerdict call false
      events := (run.pendingControls[commandId]?.map fun pending =>
        Event.controlReturned commandId pending.expected false).toList }
  | .controlFinish call commandId => some <| withRun inner call.runId fun run =>
    let responses := (run.pendingControls[commandId]?.map (·.responses)).getD ∅
    let ok := responses.toList.all fun answer => answer.2.isOk
    { shared := inner.modifyRun call.runId fun run =>
        { run with pendingControls := run.pendingControls.erase commandId }
      ops := controlVerdict call ok
      events := (run.pendingControls[commandId]?.map fun pending =>
        Event.controlReturned commandId pending.expected ok).toList }
  | .setPaused runId paused => some
    { shared := inner.modifyRun runId fun run => { run with paused := paused } }
  | .setStopping runId => withState inner runId fun run =>
    { shared := if run.state.isTerminal then inner
        else inner.modifyRun runId fun run => { run with state := .stopping } }

end Controller

end Loadr
