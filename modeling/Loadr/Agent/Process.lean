import Mathlib.Data.List.Infix
import Loadr.Protocol

/-!
# The agent process

The run slot of `agent.rs` with the tasks that use it.  Each step is one critical section of the
slot lock, or the work between two of them.

An assignment that claims the slot gets a number, which stands for the identity of its cancel flag,
start channel, engine and tasks.  The slot itself is compared by run id, as in the source.  What the
process queues on its uplink is `sent`; `heard` is the log of what it has handled.
-/

namespace Loadr

open Function

inductive RunStatus
  | pending
  | running
  | stopping
  | finished
deriving DecidableEq, Repr

/-- What a run handle reads and writes of its engine. -/
structure Engine where
  scalable : List String
  status : RunStatus := .pending
  paused : Bool := false
  stopReason : Option String := none
  softStop : Bool := false
  hardStop : Bool := false
deriving DecidableEq, Repr

namespace Engine

def stop (e : Engine) (reason : String) : Engine :=
  { e with stopReason := some reason, softStop := true }

def kill (e : Engine) (reason : String) : Engine :=
  { e with stopReason := some reason, softStop := true, hardStop := true }

def scale (e : Engine) (scenario : String) : Except String Unit :=
  if scenario ∈ e.scalable then .ok ()
  else .error ("scenario `" ++ scenario ++ "` is not externally controlled (available: " ++
    ", ".intercalate e.scalable ++ ")")

/-- The commands a running engine answers to. -/
def drive (e : Engine) (c : Control) : Engine × Except String Unit :=
  match c.action with
  | .stop => (e.stop "controller requested stop", .ok ())
  | .kill => (e.kill "controller requested kill", .ok ())
  | .pause => ({ e with paused := true }, .ok ())
  | .resume => ({ e with paused := false }, .ok ())
  | .scale => (e, e.scale c.scenario)
  | .other action => (e, .error ("unknown control action `" ++ action ++ "`"))

end Engine

namespace Agent

/-- The run currently occupying the agent. -/
inductive RunPhase
  | preparing (runId : String) (claim : ℕ) (pendingStart : Option ℤ)
  /-- Armed behind the start barrier while it holds its start channel, running or finished once the
  channel is taken. -/
  | armed (runId : String) (claim : ℕ) (startTx : Bool)
deriving DecidableEq, Repr

def RunPhase.runId : RunPhase → String
  | .preparing runId .. | .armed runId .. => runId

inductive PrepStage
  | building
  | failed (detail : String)
  | cleared (detail : String)
  | reporting (detail : String)
  | built (scalable : List String)
  | armed
deriving DecidableEq, Repr

structure Prep where
  assignment : Assignment
  stage : PrepStage
deriving DecidableEq, Repr

inductive StartChannel
  | pending
  | sent (startUnixMs : ℤ)
  | dropped
deriving DecidableEq, Repr

inductive RunStage
  | waiting
  | sleeping
  | starting
  | running
  | ending (kind : EventKind) (detail : String)
  | clearing
deriving DecidableEq, Repr

structure RunTask where
  runId : String
  stage : RunStage
deriving DecidableEq, Repr

structure Process (β : Type) where
  agentId : String
  agentName : String
  labels : StringMap
  incarnation : String
  current : Option RunPhase := none
  claims : ℕ := 0
  preps : ℕ → Option Prep := fun _ => none
  cancelled : ℕ → Bool := fun _ => false
  startRx : ℕ → StartChannel := fun _ => .pending
  engines : ℕ → Option Engine := fun _ => none
  runs : ℕ → Option RunTask := fun _ => none
  sent : List (AgentMsg β) := []
  heard : List CtrlMsg := []

inductive EngineEvent (β : Type)
  | flush (deltaJson : β)
  | stopping
  | returned (result : Except String (Option String))

inductive Act (β : Type)
  | receive (m : CtrlMsg) (room : Bool)
  /-- The next step of a preparation, with what `prepare_engine` returns. -/
  | prep (n : ℕ) (result : Except String (List String)) (room : Bool)
  | run (n : ℕ) (ev : EngineEvent β) (room : Bool)
  | heartbeat (activeVus : ℕ)
  | shutdown

/-- The claim whose task makes the step. -/
def Act.task {β : Type} : Act β → Option ℕ
  | .prep n .. | .run n .. => some n
  | _ => none

namespace Process

variable {β : Type}

/-- `register_message`: a run still preparing counts as in flight. -/
def register (p : Process β) : Register where
  agentId := p.agentId
  agentName := p.agentName
  protocolVersion := protocolVersion
  labels := p.labels
  resumeRunId := (p.current.map RunPhase.runId).getD ""
  incarnation := p.incarnation

def enqueue (p : Process β) (m : AgentMsg β) (room : Bool) : Process β :=
  if room then { p with sent := m :: p.sent } else p

def runEvent (runId : String) (kind : EventKind) (detail : String) : AgentMsg β :=
  .event { runId := runId, kind := kind, detail := detail }

/-- Put a phase into the slot; a start channel in the old one is dropped. -/
def setCurrent (p : Process β) (phase : Option RunPhase) : Process β :=
  match p.current with
  | some (.armed _ n true) =>
    { p with current := phase, startRx := Function.update p.startRx n .dropped }
  | _ => { p with current := phase }

/-- Run ids become directory names: a single normal path component. -/
def validRunId (runId : String) : Bool :=
  !runId.isEmpty && !runId.toList.contains '/' && !runId.toList.contains '\\' &&
    !decide (['.', '.'] <:+: runId.toList)

/-- The slot is claimed and the preparation spawned. -/
def claim (p : Process β) (a : Assignment) : Process β :=
  let p' := p.setCurrent (some (.preparing a.runId p.claims none))
  { p' with
    claims := p.claims + 1
    preps := Function.update p.preps p.claims (some { assignment := a, stage := .building }) }

def armAssignment (p : Process β) (a : Assignment) : Except String (Process β) :=
  if a.partitionCount = 0 ∨ a.partitionCount ≤ a.partitionIndex then
    .error ("invalid partition " ++ toString a.partitionIndex ++ "/" ++ toString a.partitionCount)
  else if !validRunId a.runId then
    .error ("security violation: invalid run id `" ++ a.runId ++ "`")
  else
    match p.current with
    | none => .ok (p.claim a)
    | some phase =>
      -- a duplicate: the run is already preparing or armed
      if phase.runId = a.runId then .ok p
      else
        match phase with
        | .preparing runId .. => .error ("agent is busy with run " ++ runId)
        | .armed runId n _ =>
          if (p.engines n).any fun e => e.status != .finished then
            .error ("agent is busy with run " ++ runId)
          else .ok (p.claim a)

def handleStart (p : Process β) (runId : String) (startUnixMs : ℤ) : Process β :=
  match p.current with
  | some (.armed R n startTx) =>
    if R = runId ∧ startTx then
      { p with
        current := some (.armed R n false)
        startRx := Function.update p.startRx n (.sent startUnixMs) }
    else p
  | some (.preparing R n _) =>
    -- ahead of the readiness report: a replay, honored once armed
    if R = runId then { p with current := some (.preparing R n (some startUnixMs)) } else p
  | none => p

def controlAck (c : Control) (result : Except String Unit) : AgentMsg β :=
  .controlAck
    { runId := c.runId, commandId := c.commandId, action := c.action, scenario := c.scenario
      value := c.value
      applied := match result with | .ok _ => true | .error _ => false
      detail := match result with | .ok _ => "" | .error detail => detail }

def handleControl (p : Process β) (c : Control) (room : Bool) : Process β :=
  let inactive := p.enqueue (controlAck c (.error "run is not active on this agent")) room
  match p.current with
  | some (.preparing R n _) =>
    if R = c.runId then
      if c.action.isStop then
        -- free the slot now; the flag makes the preparation discard its engine
        enqueue { p with current := none, cancelled := Function.update p.cancelled n true }
          (controlAck c (.ok ())) room
      else p.enqueue (controlAck c (.error "run is still preparing on this agent")) room
    else inactive
  | some (.armed R n startTx) =>
    if R = c.runId then
      if c.action.isStop ∧ startTx then
        -- never started: dropping the channel wakes the parked run task
        let killed := (p.engines n).map (·.kill "controller requested stop before start")
        enqueue { p.setCurrent none with engines := Function.update p.engines n killed }
          (controlAck c (.ok ())) room
      else
        match p.engines n with
        | none => p
        | some e =>
          enqueue { p with engines := Function.update p.engines n (some (e.drive c).1) }
            (controlAck c (e.drive c).2) room
    else inactive
  | none => inactive

/-- `handle_controller_message`; acknowledgements go to the uplink window. -/
def handleControllerMessage (p : Process β) (m : CtrlMsg) (room : Bool) : Process β :=
  match m with
  | .registered | .uplinkAck _ => p
  | .assignment a =>
    match p.armAssignment a with
    | .ok p' => p'
    | .error detail => p.enqueue (runEvent a.runId .prepFailed detail) room
  | .start runId startUnixMs => p.handleStart runId startUnixMs
  | .control c => p.handleControl c room

def setPrep (p : Process β) (n : ℕ) (prep : Option Prep) : Process β :=
  { p with preps := Function.update p.preps n prep }

def arm (p : Process β) (n : ℕ) (a : Assignment) (scalable : List String) : Process β :=
  match p.current with
  | some (.preparing R _ pendingStart) =>
    if R = a.runId then
      if p.cancelled n then { p.setPrep n none with current := none }
      else
        { p.setPrep n (some { assignment := a, stage := .armed }) with
          current := some (.armed a.runId n pendingStart.isNone)
          startRx := Function.update p.startRx n
            (match pendingStart with
              | some t => .sent t
              | none => .pending)
          engines := Function.update p.engines n (some { scalable := scalable })
          runs := Function.update p.runs n (some { runId := a.runId, stage := .waiting }) }
    else p.setPrep n none
  | _ => p.setPrep n none

def prepStep (p : Process β) (n : ℕ) (result : Except String (List String)) (room : Bool) :
    Option (Process β) :=
  (p.preps n).map fun prep =>
    let a := prep.assignment
    match prep.stage with
    | .building =>
      p.setPrep n (some
        { assignment := a
          stage := match result with
            | .ok scalable => .built scalable
            | .error detail => .failed detail })
    | .failed detail =>
      let p' := p.setPrep n (some { assignment := a, stage := .cleared detail })
      match p.current with
      | some (.preparing R _ _) => if R = a.runId then { p' with current := none } else p'
      | _ => p'
    | .cleared detail =>
      if p.cancelled n then p.setPrep n none
      else p.setPrep n (some { assignment := a, stage := .reporting detail })
    | .reporting detail => (p.setPrep n none).enqueue (runEvent a.runId .prepFailed detail) room
    | .built scalable => p.arm n a scalable
    | .armed => (p.setPrep n none).enqueue (.assignmentReady a.runId a.partitionIndex) room

def setRun (p : Process β) (n : ℕ) (run : Option RunTask) : Process β :=
  { p with runs := Function.update p.runs n run }

def setStatus (p : Process β) (n : ℕ) (status : RunStatus) : Process β :=
  { p with
    engines :=
      Function.update p.engines n ((p.engines n).map fun e => { e with status := status }) }

def clear (p : Process β) (runId : String) : Process β :=
  match p.current with
  | some (.armed R _ _) => if R = runId then p.setCurrent none else p
  | _ => p

def engineReturned (p : Process β) (n : ℕ) (R : String) :
    Except String (Option String) → Process β
  | .ok none =>
    (p.setStatus n .finished).setRun n (some { runId := R, stage := .ending .finished "" })
  | .ok (some reason) =>
    (p.setStatus n .finished).setRun n (some { runId := R, stage := .ending .aborted reason })
  | .error e => p.setRun n (some { runId := R, stage := .ending .failed e })

/-- One step of the task of `spawn_run`; `none` while it waits for its start. -/
def runStep (p : Process β) (n : ℕ) (ev : EngineEvent β) (room : Bool) : Option (Process β) :=
  match p.runs n with
  | none => none
  | some run =>
    let next := fun stage => some { run with stage := stage }
    match run.stage with
    | .waiting =>
      match p.startRx n with
      | .pending => none
      | .sent _ => some (p.setRun n (next .sleeping))
      | .dropped => some (p.setRun n (next .clearing))
    | .sleeping => some (p.setRun n (next .starting))
    | .starting =>
      some (((p.setStatus n .running).setRun n (next .running)).enqueue
        (runEvent run.runId .started "") room)
    | .running =>
      match ev with
      | .flush deltaJson => some (p.enqueue (.metrics run.runId deltaJson) room)
      | .stopping => some (p.setStatus n .stopping)
      | .returned result => some (p.engineReturned n run.runId result)
    | .ending kind detail =>
      some ((p.setRun n (next .clearing)).enqueue (runEvent run.runId kind detail) room)
    | .clearing => some ((p.setRun n none).clear run.runId)

def shutdown (p : Process β) : Process β :=
  match p.current with
  | some (.preparing _ n _) =>
    { p with current := none, cancelled := Function.update p.cancelled n true }
  | some (.armed _ n _) =>
    { p.setCurrent none with
      engines := Function.update p.engines n ((p.engines n).map (·.kill "agent shutting down")) }
  | none => p

def next (p : Process β) : Act β → Option (Process β)
  | .receive m room => some ({ p with heard := m :: p.heard }.handleControllerMessage m room)
  | .prep n result room => p.prepStep n result room
  | .run n ev room => p.runStep n ev room
  | .heartbeat activeVus =>
    some (p.enqueue (.heartbeat (match p.current with
      | some (.armed ..) => activeVus
      | _ => 0)) true)
  | .shutdown => some p.shutdown

/-! ## What a step does -/

def hear (p : Process β) : Act β → Process β
  | .receive m _ => { p with heard := m :: p.heard }
  | _ => p

def moveRun (p : Process β) (n : ℕ) (status : Option RunStatus) (run : RunTask) : Process β :=
  (status.elim p (p.setStatus n)).setRun n (some run)

end Process

/-- The preparation has still to look at the slot. -/
@[grind =]
def PrepStage.isOpen : PrepStage → Bool
  | .building | .failed _ | .built _ => true
  | .cleared _ | .reporting _ | .armed => false

/-- Where a run task goes next, and the status its engine gets. -/
inductive RunStage.Leads (channel : StartChannel) : RunStage → RunStage → Option RunStatus → Prop
  | woken {t : ℤ} (h : channel = .sent t) : Leads channel .waiting .sleeping none
  | dropped (h : channel = .dropped) : Leads channel .waiting .clearing none
  | due : Leads channel .sleeping .starting none
  | started : Leads channel .starting .running (some .running)
  | stopping : Leads channel .running .running (some .stopping)
  | finished (kind : EventKind) (detail : String) :
      Leads channel .running (.ending kind detail) (some .finished)
  | failed (detail : String) : Leads channel .running (.ending .failed detail) none
  | reported (kind : EventKind) (detail : String) : Leads channel (.ending kind detail) .clearing none

namespace Process

variable {β : Type}

/-- What a step does, other than to hear and to say something. -/
inductive Change (p : Process β) : Act β → Process β → Prop
  | idle (act : Act β) : Change p act p
  | claim (a : Assignment) (room : Bool) (hok : p.armAssignment a = .ok (p.claim a))
      (hfree : ∀ phase, p.current = some phase → ∃ R n tx, phase = .armed R n tx ∧
        (p.engines n).any (·.status != .finished) = false) :
      Change p (.receive (.assignment a) room) (p.claim a)
  | start {R : String} {n : ℕ} (t : ℤ) (room : Bool) (hc : p.current = some (.armed R n true)) :
      Change p (.receive (.start R t) room)
        { p with
          current := some (.armed R n false)
          startRx := Function.update p.startRx n (.sent t) }
  | latch {R : String} {n : ℕ} {o : Option ℤ} (t : ℤ) (room : Bool)
      (hc : p.current = some (.preparing R n o)) :
      Change p (.receive (.start R t) room) { p with current := some (.preparing R n (some t)) }
  | cancel {R : String} {n : ℕ} {o : Option ℤ} (act : Act β) (hact : act.task = none)
      (hc : p.current = some (.preparing R n o)) :
      Change p act { p with current := none, cancelled := Function.update p.cancelled n true }
  | kill {R : String} {n : ℕ} {tx : Bool} (act : Act β) (hact : act.task = none) (reason : String)
      (hc : p.current = some (.armed R n tx)) (htx : act = .shutdown ∨ tx = true) :
      Change p act
        { p.setCurrent none with
          engines := Function.update p.engines n ((p.engines n).map (·.kill reason)) }
  | drive {c : Control} {n : ℕ} {tx : Bool} {e : Engine} (room : Bool)
      (hc : p.current = some (.armed c.runId n tx)) (he : p.engines n = some e) :
      Change p (.receive (.control c) room)
        { p with engines := Function.update p.engines n (some (e.drive c).1) }
  | build {n : ℕ} {a : Assignment} {stage : PrepStage} (result : Except String (List String))
      (room : Bool) (hp : p.preps n = some ⟨a, .building⟩) (hopen : stage.isOpen = true) :
      Change p (.prep n result room) (p.setPrep n (some ⟨a, stage⟩))
  | close {n : ℕ} {prep : Prep} {next : Option Prep} (result : Except String (List String))
      (room : Bool) (hp : p.preps n = some prep)
      (hnext : ∀ x, next = some x → x.assignment = prep.assignment ∧ x.stage.isOpen = false)
      (hslot : prep.stage.isOpen = true → ∀ R m t, p.current = some (.preparing R m t) →
        R ≠ prep.assignment.runId) : Change p (.prep n result room) (p.setPrep n next)
  | leave {n m : ℕ} {prep : Prep} {t : Option ℤ} {next : Option Prep}
      (result : Except String (List String)) (room : Bool) (hp : p.preps n = some prep)
      (hopen : prep.stage.isOpen = true)
      (hnext : ∀ x, next = some x → x.assignment = prep.assignment ∧ x.stage.isOpen = false)
      (hc : p.current = some (.preparing prep.assignment.runId m t)) :
      Change p (.prep n result room) { p.setPrep n next with current := none }
  | arm {n m : ℕ} {a : Assignment} {scalable : List String} {t : Option ℤ}
      (result : Except String (List String)) (room : Bool)
      (hp : p.preps n = some ⟨a, .built scalable⟩) (hc : p.current = some (.preparing a.runId m t))
      (hn : p.cancelled n = false) :
      Change p (.prep n result room)
        { p.setPrep n (some ⟨a, .armed⟩) with
          current := some (.armed a.runId n t.isNone)
          startRx := Function.update p.startRx n (t.elim .pending .sent)
          engines := Function.update p.engines n (some { scalable := scalable })
          runs := Function.update p.runs n (some ⟨a.runId, .waiting⟩) }
  | task {n : ℕ} {run : RunTask} {stage : RunStage} {status : Option RunStatus}
      (ev : EngineEvent β) (room : Bool) (hr : p.runs n = some run)
      (h : run.stage.Leads (p.startRx n) stage status) :
      Change p (.run n ev room) (p.moveRun n status ⟨run.runId, stage⟩)
  | clear {n : ℕ} {run : RunTask} (ev : EngineEvent β) (room : Bool) (hr : p.runs n = some run)
      (h : run.stage = .clearing) (hslot : ∀ m tx, p.current ≠ some (.armed run.runId m tx)) :
      Change p (.run n ev room) (p.setRun n none)
  | vacate {n m : ℕ} {run : RunTask} {tx : Bool} (ev : EngineEvent β) (room : Bool)
      (hr : p.runs n = some run) (h : run.stage = .clearing)
      (hc : p.current = some (.armed run.runId m tx)) :
      Change p (.run n ev room) ((p.setRun n none).setCurrent none)

def Says (p : Process β) (act : Act β) : AgentMsg β → Prop
  | .register => False
  | .heartbeat _ => ∃ activeVus, act = .heartbeat activeVus
  | .metrics R json => ∃ n room run, act = .run n (.flush json) room ∧ p.runs n = some run ∧
      run.stage = .running ∧ run.runId = R
  | .event ev =>
    (∃ a room, act = .receive (.assignment a) room ∧ ev.runId = a.runId ∧ ev.kind = .prepFailed) ∨
    (∃ n result room prep, act = .prep n result room ∧ p.preps n = some prep ∧
      ev.runId = prep.assignment.runId ∧ ev.kind = .prepFailed) ∨
    ∃ n e room run, act = .run n e room ∧ p.runs n = some run ∧ ev.runId = run.runId ∧
      (run.stage = .starting ∧ ev.kind = .started ∨ ∃ detail, run.stage = .ending ev.kind detail)
  | .controlAck ack => ∃ c room result, act = .receive (.control c) room ∧
      (.controlAck ack : AgentMsg β) = controlAck c result
  | .assignmentReady R i => ∃ n result room prep, act = .prep n result room ∧
      p.preps n = some prep ∧ prep.stage = .armed ∧ prep.assignment.runId = R ∧
      prep.assignment.partitionIndex = i

variable {p p' : Process β} {act : Act β} {n : ℕ} {room : Bool}

/-- A step makes one change and says at most one thing. -/
def Stepped (p : Process β) (act : Act β) (p' : Process β) : Prop :=
  ∃ q, Change (p.hear act) act q ∧ (p' = q ∨ ∃ m room, Says p act m ∧ p' = q.enqueue m room)

theorem Stepped.silent {q : Process β} (h : Change (p.hear act) act q) : Stepped p act q :=
  ⟨q, h, .inl rfl⟩

theorem Stepped.telling {q : Process β} {m : AgentMsg β} (h : Change (p.hear act) act q)
    (hm : Says p act m) (room : Bool) : Stepped p act (q.enqueue m room) :=
  ⟨q, h, .inr ⟨m, room, hm, rfl⟩⟩

theorem armAssignment_cases {a : Assignment} (h : p.armAssignment a = .ok p') :
    p' = p ∨ p' = p.claim a ∧ ∀ phase, p.current = some phase →
      ∃ R n tx, phase = .armed R n tx ∧ (p.engines n).any (·.status != .finished) = false := by
  unfold armAssignment at h
  repeat' split at h
  all_goals cases h
  · rename_i hc
    exact .inr ⟨rfl, fun phase h => absurd (hc.symm.trans h) nofun⟩
  · exact .inl rfl
  · rename_i R n tx hc _ hfinished
    refine .inr ⟨rfl, fun phase h => ?_⟩
    cases hc.symm.trans h
    exact ⟨R, n, tx, rfl, Bool.eq_false_iff.2 hfinished⟩

theorem stepped_handleControl (c : Control) (room : Bool) : Stepped p (.receive (.control c) room)
    ((p.hear (.receive (.control c) room)).handleControl c room) := by
  have hack {q : Process β}
      (h : Change (p.hear (.receive (.control c) room)) (.receive (.control c) room) q)
      (result : Except String Unit) :
      Stepped p (.receive (.control c) room) (q.enqueue (controlAck c result) room) := by
    refine .telling h ?_ room
    exact ⟨c, room, result, rfl, rfl⟩
  unfold handleControl
  dsimp only
  split
  · split
    · split
      · exact hack (.cancel _ rfl ‹_›) _
      · exact hack (.idle _) _
    · exact hack (.idle _) _
  · rename_i hc
    split
    · rename_i hR
      subst hR
      split
      · exact hack (.kill _ rfl _ hc (.inr (‹_ ∧ _›).2)) _
      · split
        · exact .silent (.idle _)
        · exact hack (.drive _ hc ‹_›) _
    · exact hack (.idle _) _
  · exact hack (.idle _) _

theorem stepped_handleControllerMessage (m : CtrlMsg) (room : Bool) :
    Stepped p (.receive m room) ((p.hear (.receive m room)).handleControllerMessage m room) := by
  cases m with
  | registered | uplinkAck => exact .silent (.idle _)
  | assignment a =>
    unfold handleControllerMessage
    dsimp only
    split
    · rename_i hok
      rcases armAssignment_cases hok with rfl | ⟨rfl, hfree⟩
      · exact .silent (.idle _)
      · exact .silent (.claim a room hok hfree)
    · refine .telling (.idle _) ?_ room
      exact .inl ⟨a, room, rfl, rfl, rfl⟩
  | start R t =>
    show Stepped p _ ((p.hear _).handleStart R t)
    unfold handleStart
    split
    · rename_i hc
      split
      · rename_i h
        obtain ⟨rfl, rfl⟩ := h
        exact .silent (.start t room hc)
      · exact .silent (.idle _)
    · rename_i hc
      split
      · rename_i h
        subst h
        exact .silent (.latch t room hc)
      · exact .silent (.idle _)
    · exact .silent (.idle _)
  | control c => exact stepped_handleControl c room

theorem stepped_prepStep {result : Except String (List String)}
    (h : p.prepStep n result room = some p') : Stepped p (.prep n result room) p' := by
  obtain ⟨⟨a, stage⟩, hp, rfl⟩ := Option.map_eq_some_iff.1 h
  have hclose {next : Option Prep}
      (hnext : ∀ x, next = some x → x.assignment = a ∧ x.stage.isOpen = false)
      (hslot : stage.isOpen = true → ∀ R m t, p.current = some (.preparing R m t) → R ≠ a.runId) :
      Change p (.prep n result room) (p.setPrep n next) :=
    .close result room hp hnext hslot
  have hother (hc : ∀ R m t, p.current ≠ some (.preparing R m t)) {stage : PrepStage} :
      stage.isOpen = true → ∀ R m t, p.current = some (.preparing R m t) → R ≠ a.runId :=
    fun _ R m t h => absurd h (hc R m t)
  have hnone : ∀ x, none = some x → Prep.assignment x = a ∧ x.stage.isOpen = false := nofun
  cases stage with
  | building => exact .silent (.build result room hp (by cases result <;> rfl))
  | failed detail =>
    have hnext : ∀ x, some (Prep.mk a (.cleared detail)) = some x →
        x.assignment = a ∧ x.stage.isOpen = false := by
      rintro _ ⟨⟩
      exact ⟨rfl, rfl⟩
    dsimp only
    split
    · rename_i R m t hc
      split
      · rename_i hR
        subst hR
        exact .silent (.leave result room hp rfl hnext hc)
      · rename_i hR
        refine .silent (hclose hnext fun _ R' m' t' h => ?_)
        cases hc.symm.trans h
        exact hR
    · rename_i hc
      exact .silent (hclose hnext (hother hc))
  | cleared detail =>
    dsimp only
    split
    · exact .silent (hclose hnone nofun)
    · refine .silent (hclose ?_ nofun)
      rintro _ ⟨⟩
      exact ⟨rfl, rfl⟩
  | reporting detail =>
    refine .telling ?_ ?_ room
    · exact hclose hnone nofun
    · exact .inr (.inl ⟨n, result, room, _, rfl, hp, rfl, rfl⟩)
  | built scalable =>
    show Stepped p _ (p.arm n a scalable)
    unfold arm
    split
    · rename_i R m t hc
      split
      · rename_i hR
        subst hR
        split
        · exact .silent (.leave result room hp rfl hnone hc)
        · rename_i hn
          rw [Bool.not_eq_true] at hn
          have h := Change.arm result room hp hc hn
          cases t <;> exact .silent h
      · rename_i hR
        refine .silent (hclose hnone fun _ R' m' t' h => ?_)
        cases hc.symm.trans h
        exact hR
    · rename_i hc
      exact .silent (hclose hnone (hother hc))
  | armed =>
    refine .telling ?_ ?_ room
    · exact hclose hnone nofun
    · exact ⟨n, result, room, _, rfl, hp, rfl, rfl, rfl⟩

theorem stepped_runStep {ev : EngineEvent β} (h : p.runStep n ev room = some p') :
    Stepped p (.run n ev room) p' := by
  unfold runStep at h
  split at h
  · cases h
  rename_i run hr
  obtain ⟨R, stage⟩ := run
  have htask {stage' : RunStage} {status : Option RunStatus}
      (h : stage.Leads (p.startRx n) stage' status) :
      Change p (.run n ev room) (p.moveRun n status ⟨R, stage'⟩) :=
    .task ev room hr h
  cases stage with
  | waiting =>
    dsimp only at h
    split at h
    · cases h
    · cases h
      exact .silent (htask (.woken ‹_›))
    · cases h
      exact .silent (htask (.dropped ‹_›))
  | sleeping =>
    cases h
    exact .silent (htask .due)
  | starting =>
    cases h
    refine .telling ?_ ?_ room
    · exact htask .started
    · exact .inr (.inr ⟨n, ev, room, _, rfl, hr, rfl, .inl ⟨rfl, rfl⟩⟩)
  | running =>
    cases ev with
    | flush json =>
      cases h
      refine .telling (.idle _) ?_ room
      exact ⟨n, room, _, rfl, hr, rfl, rfl⟩
    | stopping =>
      cases h
      have hsame : (p.setStatus n .stopping).setRun n (some ⟨R, .running⟩) =
          p.setStatus n .stopping := by
        rw [← hr]
        exact congrArg (fun runs => { p.setStatus n .stopping with runs }) (update_eq_self ..)
      exact .silent (hsame ▸ htask .stopping)
    | returned result =>
      cases h
      unfold engineReturned
      split
      · exact .silent (htask (.finished _ _))
      · exact .silent (htask (.finished _ _))
      · exact .silent (htask (.failed _))
  | ending kind detail =>
    cases h
    refine .telling ?_ ?_ room
    · exact htask (.reported kind detail)
    · exact .inr (.inr ⟨n, ev, room, _, rfl, hr, rfl, .inr ⟨detail, rfl⟩⟩)
  | clearing =>
    cases h
    unfold clear
    split
    · rename_i hc
      split
      · rename_i hR
        subst hR
        exact .silent (.vacate ev room hr rfl hc)
      · rename_i hR
        refine .silent (.clear ev room hr rfl fun m tx h => hR ?_)
        cases hc.symm.trans h
        rfl
    · rename_i hc
      exact .silent (.clear ev room hr rfl (hc R))

theorem stepped_of_next (h : p.next act = some p') : Stepped p act p' := by
  cases act with
  | receive m room =>
    cases h
    exact stepped_handleControllerMessage m room
  | prep n result room => exact stepped_prepStep h
  | run n ev room => exact stepped_runStep h
  | heartbeat activeVus =>
    cases h
    refine .telling (.idle _) ?_ true
    exact ⟨activeVus, rfl⟩
  | shutdown =>
    cases h
    unfold shutdown
    split
    · exact .silent (.cancel _ rfl ‹_›)
    · exact .silent (.kill _ rfl _ ‹_› (.inl rfl))
    · exact .silent (.idle _)

theorem exists_change (h : p.next act = some p') :
    ∃ q sent, Change (p.hear act) act q ∧ p' = { q with sent } := by
  obtain ⟨q, hq, rfl | ⟨m, room, -, rfl⟩⟩ := stepped_of_next h
  · exact ⟨_, _, hq, rfl⟩
  · unfold enqueue
    split
    · exact ⟨q, _, hq, rfl⟩
    · exact ⟨_, _, hq, rfl⟩

/-! ## What a step leaves alone -/

def identity (p : Process β) : String × String := (p.agentId, p.incarnation)

theorem setCurrent_eq (p : Process β) (phase : Option RunPhase) :
    ∃ startRx, p.setCurrent phase = { p with current := phase, startRx } := by
  unfold setCurrent
  split
  · exact ⟨_, rfl⟩
  · exact ⟨p.startRx, rfl⟩

theorem Change.frame {q : Process β} (h : Change p act q) :
    q.heard = p.heard ∧ q.sent = p.sent ∧ q.identity = p.identity := by
  have hset (p : Process β) (phase : Option RunPhase) : (p.setCurrent phase).heard = p.heard ∧
      (p.setCurrent phase).sent = p.sent ∧ (p.setCurrent phase).identity = p.identity := by
    obtain ⟨startRx, h⟩ := p.setCurrent_eq phase
    rw [h]
    exact ⟨rfl, rfl, rfl⟩
  cases h with
  | claim | kill | vacate => exact hset _ _
  | task =>
    rename_i status _ _ _ _
    cases status <;> exact ⟨rfl, rfl, rfl⟩
  | _ => exact ⟨rfl, rfl, rfl⟩

theorem heard_next (h : p.next act = some p') :
    p'.heard = match act with
      | .receive m _ => m :: p.heard
      | _ => p.heard := by
  have hhear : (p.hear act).heard = match act with
      | .receive m _ => m :: p.heard
      | _ => p.heard := by
    cases act <;> rfl
  obtain ⟨q, sent, hq, rfl⟩ := exists_change h
  exact hq.frame.1.trans hhear

theorem identity_next (h : p.next act = some p') : p'.identity = p.identity := by
  have hhear : (p.hear act).identity = p.identity := by cases act <;> rfl
  obtain ⟨q, sent, hq, rfl⟩ := exists_change h
  exact hq.frame.2.2.trans hhear

/-! ## An agent starts only when told to -/

def begun : RunStage → Bool
  | .waiting | .clearing => false
  | _ => true

/-- Whatever the process knows or says of a start, it has heard from the controller. -/
structure StartHeard (p : Process β) : Prop where
  latched : ∀ R n t, p.current = some (.preparing R n (some t)) → .start R t ∈ p.heard
  slot : ∀ R n tx, p.current = some (.armed R n tx) → ∀ run, p.runs n = some run → run.runId = R
  channel : ∀ n t, p.startRx n = .sent t → ∀ run, p.runs n = some run → .start run.runId t ∈ p.heard
  task : ∀ n run, p.runs n = some run → begun run.stage = true → ∃ t, .start run.runId t ∈ p.heard
  said : ∀ ev, .event ev ∈ p.sent → ev.kind = .started → ∃ t, .start ev.runId t ∈ p.heard

theorem update_cases {α : Type} {f : ℕ → α} {k : ℕ} {v w : α} (h : Function.update f n v k = w) :
    k = n ∧ v = w ∨ k ≠ n ∧ f k = w := by
  by_cases hk : k = n
  · exact .inl ⟨hk, by rwa [hk, update_self] at h⟩
  · exact .inr ⟨hk, by rwa [update_of_ne hk] at h⟩

namespace StartHeard

section

variable (h : StartHeard p)
include h

theorem hear (m : CtrlMsg) : StartHeard { p with heard := m :: p.heard } where
  latched R n t hc := List.mem_cons_of_mem _ (h.latched R n t hc)
  slot := h.slot
  channel n t ht run hr := List.mem_cons_of_mem _ (h.channel n t ht run hr)
  task n run hr hb := (h.task n run hr hb).imp fun _ => List.mem_cons_of_mem _
  said ev hev hk := (h.said ev hev hk).imp fun _ => List.mem_cons_of_mem _

theorem enqueue {m : AgentMsg β} (room : Bool)
    (hm : ∀ ev, m = .event ev → ev.kind = .started → ∃ t, .start ev.runId t ∈ p.heard) :
    StartHeard (p.enqueue m room) := by
  unfold Process.enqueue
  split
  · refine { h with said := fun ev hev hk => ?_ }
    rcases List.mem_cons.1 hev with rfl | hev
    · exact hm ev rfl hk
    · exact h.said ev hev hk
  · exact h

theorem setChannel (n : ℕ) {c : StartChannel}
    (hc : ∀ t, c = .sent t → ∀ run, p.runs n = some run → .start run.runId t ∈ p.heard) :
    StartHeard { p with startRx := Function.update p.startRx n c } := by
  refine { h with channel := fun m t ht run hr => ?_ }
  rcases update_cases ht with ⟨rfl, he⟩ | ⟨-, ht⟩
  · exact hc t he run hr
  · exact h.channel m t ht run hr

theorem setCurrent {phase : Option RunPhase}
    (hphase : ∀ R n t, phase ≠ some (.preparing R n (some t)))
    (harmed : ∀ R n tx, phase ≠ some (.armed R n tx)) : StartHeard (p.setCurrent phase) := by
  have hset : StartHeard { p with current := phase } :=
    { h with
      latched := fun R n t hc => absurd hc (hphase R n t)
      slot := fun R n tx hc => absurd hc (harmed R n tx) }
  unfold Process.setCurrent
  split
  · exact hset.setChannel _ nofun
  · exact hset

theorem setCurrent_none : StartHeard (p.setCurrent none) :=
  h.setCurrent (fun _ _ _ => nofun) fun _ _ _ => nofun

theorem setRun {run : Option RunTask} (hrun : ∀ run' ∈ run, ∃ old, p.runs n = some old ∧
      old.runId = run'.runId ∧ (begun run'.stage = true → ∃ t, .start run'.runId t ∈ p.heard)) :
    StartHeard (p.setRun n run) := by
  have hold : ∀ m run', Function.update p.runs n run m = some run' →
      ∃ old, p.runs m = some old ∧ old.runId = run'.runId ∧
        (begun run'.stage = true → ∃ t, .start run'.runId t ∈ p.heard) := by
    intro m run' hr
    rcases update_cases hr with ⟨rfl, he⟩ | ⟨-, hr⟩
    · exact hrun run' he
    · exact ⟨run', hr, rfl, h.task m run' hr⟩
  refine { h with slot := ?_, channel := ?_, task := ?_ }
  · intro R m tx hc run' hr
    obtain ⟨old, ho, hid, -⟩ := hold m run' hr
    exact hid ▸ h.slot R m tx hc old ho
  · intro m t ht run' hr
    obtain ⟨old, ho, hid, -⟩ := hold m run' hr
    exact hid ▸ h.channel m t ht old ho
  · intro m run' hr
    obtain ⟨-, -, -, hb⟩ := hold m run' hr
    exact hb

theorem clearRun (n : ℕ) : StartHeard (p.setRun n none) := h.setRun nofun

theorem change {q : Process β} (hq : Change p act q)
    (hm : ∀ R t room, act = .receive (.start R t) room → .start R t ∈ p.heard) : StartHeard q := by
  cases hq with
  | idle => exact h
  | claim a =>
    have hset := h.setCurrent
      (fun R n t (hc : some (RunPhase.preparing a.runId p.claims none) = _) => nomatch hc)
      fun R n tx => nofun
    exact { hset with }
  | start t room hc =>
    rename_i R n
    have htask := h.slot R n true hc
    have hset : StartHeard { p with current := some (.armed R n false) } :=
      { h with
        latched := fun _ _ _ => nofun
        slot := fun R' m tx hc run hr => by
          cases hc
          exact htask run hr }
    refine hset.setChannel n fun t' ht' run hr => ?_
    cases ht'
    rw [htask run hr]
    exact hm R t room rfl
  | latch t room hc =>
    refine { h with latched := fun R' m t' hc => ?_, slot := fun _ _ _ => nofun }
    cases hc
    exact hm _ t room rfl
  | cancel => exact { h with latched := fun _ _ _ => nofun, slot := fun _ _ _ => nofun }
  | kill => exact { h.setCurrent_none with }
  | drive | build | close => exact { h with }
  | leave => exact { h with latched := fun _ _ _ => nofun, slot := fun _ _ _ => nofun }
  | arm result room hp hc hn =>
    rename_i n m a scalable pendingStart
    refine { h with latched := fun _ _ _ => nofun, slot := ?_, channel := ?_, task := ?_ }
    · intro R k tx hc run hr
      cases hc
      rcases update_cases hr with ⟨-, ⟨⟩⟩ | ⟨hk, -⟩
      · rfl
      · cases hk rfl
    · intro k t ht run hr
      rcases update_cases hr with ⟨rfl, ⟨⟩⟩ | ⟨hk, hold⟩
      · have ht' := (update_self k _ p.startRx).symm.trans ht
        cases pendingStart with
        | none => cases ht'
        | some t' =>
          cases ht'
          exact h.latched a.runId m t hc
      · exact h.channel k t ((update_of_ne hk _ p.startRx).symm.trans ht) run hold
    · intro k run hr hb
      rcases update_cases hr with ⟨rfl, ⟨⟩⟩ | ⟨-, hold⟩
      · cases hb
      · exact h.task k run hold hb
  | task ev room hr hlead =>
    rename_i n run stage status
    have hset : StartHeard (p.setRun n (some ⟨run.runId, stage⟩)) := by
      refine h.setRun ?_
      rintro _ ⟨⟩
      refine ⟨run, hr, rfl, fun hb => ?_⟩
      by_cases hbegun : begun run.stage = true
      · exact h.task n run hr hbegun
      · obtain ⟨R, old⟩ := run
        cases hlead with
        | woken hsent => exact ⟨_, h.channel n _ hsent ⟨R, .waiting⟩ hr⟩
        | dropped => cases hb
        | _ => cases hbegun rfl
    cases status <;> exact { hset with }
  | clear => exact h.clearRun _
  | vacate => exact (h.clearRun _).setCurrent_none

theorem next (hstep : p.next act = some p') : StartHeard p' := by
  have hhear : StartHeard (p.hear act) := by
    cases act with
    | receive m => exact h.hear m
    | _ => exact h
  have hchange {q : Process β} (hq : Change (p.hear act) act q) : StartHeard q :=
    hhear.change hq fun R t room he => he ▸ List.mem_cons_self
  obtain ⟨q, hq, rfl | ⟨m, room, hm, rfl⟩⟩ := stepped_of_next hstep
  · exact hchange hq
  · refine (hchange hq).enqueue room fun ev he hk => ?_
    subst he
    rw [hq.frame.1]
    -- only a task that has been started says so
    rcases hm with ⟨-, -, -, -, hk'⟩ | ⟨-, -, -, -, -, -, -, hk'⟩ |
      ⟨n, e, room, run, rfl, hr, hid, hstage⟩
    · cases hk.symm.trans hk'
    · cases hk.symm.trans hk'
    · rw [hid]
      refine h.task n run hr ?_
      rcases hstage with ⟨hs, -⟩ | ⟨detail, hs⟩ <;> rw [hs] <;> rfl

end

end StartHeard

/-- The process has been launched and has taken some steps. -/
inductive Lived : Process β → Prop
  | launch (agentId agentName : String) (labels : StringMap) (incarnation : String) : Lived
    { agentId := agentId, agentName := agentName, labels := labels, incarnation := incarnation }
  | next {p p' : Process β} {act : Act β} : Lived p → p.next act = some p' → Lived p'

theorem Lived.startHeard (h : Lived p) : StartHeard p := by
  induction h with
  | launch => constructor <;> simp
  | next _ hstep ih => exact ih.next hstep

end Process

end Agent

end Loadr
