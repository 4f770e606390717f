import Loadr.Controller.Handlers

/-!
# The controller as a machine

All interleavings of the controller's tasks.  Sessions, submissions and control calls arrive from
outside; every other step is the next operation of some task.  What agents say is up to the
environment here.
-/

namespace Loadr

namespace Controller

variable {M : Metering}

abbrev State (M : Metering) := Tasks.State (Inner M) TaskId (Op M) Event

inductive Action (M : Metering)
  | step (t : TaskId) (env : Env M)
  | connect (reg : Register)
  | submit (sub : Submission M)
  | control (n : ℕ) (call : ControlCall)

def start (s : State M) (inner : Inner M) (t : TaskId) (ops : List (Op M)) : State M :=
  { s with shared := inner, tasks := Function.update s.tasks t ops }

def next (s : State M) : Action M → Option (State M)
  | .step t env => s.step exec t env
  | .connect reg =>
    if reg.protocolVersion = protocolVersion ∧ reg.agentId ≠ "" then
      let session := s.shared.sessionCounter + 1
      let inner := { s.shared with sessionCounter := session }
      some (start s (inner.enqueue session (.msg .registered)) (.session session)
        [.registerAgent reg session])
    else none
  | .submit sub =>
    -- run ids are random: they are not empty and never repeat
    if sub.runId ∉ s.shared.runIds ∧ sub.runId ≠ "" then
      some (start s { s.shared with runIds := sub.runId :: s.shared.runIds } (.submit sub.runId)
        [.reserveAgents sub])
    else none
  | .control n call =>
    if (s.tasks (.control n)).isEmpty then some (start s s.shared (.control n) [.controlRun call])
    else none

def initial (M : Metering) (liveness : ℕ) : State M where
  shared :=
    { liveness := liveness, agents := ∅, runs := ∅, sessionCounter := 0, controlCounter := 0
      runIds := [], downlinks := fun _ => [] }
  tasks := fun t => if t = .sweeper then [.sweep] else []
  trace := []

def machine (M : Metering) : Machine (State M) (Action M) where
  init s := ∃ liveness, s = initial M liveness
  next := next

/-! ## Schedules

Pieces of the concrete runs in the modules below: a metrics core that lists the deltas it merged,
one agent process, and one run. -/

def listing : Metering where
  Agg := List ℕ
  Delta := ℕ
  Bytes := ℕ
  Threshold := Unit
  Status := Unit
  new _ := []
  mergeDelta agg delta := delta :: agg
  decode := some
  addAgentIdentity delta _ _ := delta
  zeroLiveGauges agg _ := agg
  evaluateAll _ _ _ := ([], false)
  snapshot agg _ := agg

def registration (agentId resumeRunId : String) : Register where
  agentId := agentId
  agentName := "agent"
  protocolVersion := protocolVersion
  labels := ∅
  resumeRunId := resumeRunId
  incarnation := "i"

def submission : Submission listing where
  runId := "r"
  planYaml := ""
  externallyControlled := []
  thresholds := []
  opts := { agentFilter := none, onAgentLoss := .keepGoing, startBarrier := 5 }

theorem initialized (liveness : ℕ) : (machine listing).init (initial listing liveness) :=
  ⟨liveness, rfl⟩

def steps (t : TaskId) (n : ℕ) : List (Action listing) := List.replicate n (.step t {})

def inbound (k seq : ℕ) (m : AgentMsg ℕ) : Action listing :=
  .step (.session k) { inbound := .message { seq := seq, msg := m } }

/-- One agent registers, a run is submitted to it, the agent reports ready and the run starts. -/
def startedRun : List (Action listing) :=
  [.connect (registration "a" "")] ++ steps (.session 1) 1 ++
  [.submit submission] ++ steps (.submit "r") 4 ++
  [inbound 1 1 (.assignmentReady "r" 0)] ++ steps (.session 1) 5 ++
  steps (.barrier "r") 4

def process (agentId incarnation resumeRunId : String) : Register :=
  { registration agentId resumeRunId with incarnation := incarnation }

/-- Two agents get ready for a run, and its start is broadcast. -/
def startedPair (policy : OnAgentLoss) : List (Action listing) := List.flatten
  [[.connect (process "a" "i" "")], steps (.session 1) 1,
    [.connect (process "b" "j" "")], steps (.session 2) 1,
    [.submit { submission with
      opts := { agentFilter := none, onAgentLoss := policy, startBarrier := 5 } }],
    steps (.submit "r") 5,
    [inbound 1 1 (.assignmentReady "r" 0)], steps (.session 1) 5,
    [inbound 2 1 (.assignmentReady "r" 1)], steps (.session 2) 5, steps (.barrier "r") 5]

def claimAgain (session n : ℕ) : List (Action listing) :=
  .connect (process "a" "i" "r") :: steps (.session session) n

def intrude (agentId incarnation : String) (session n : ℕ) : List (Action listing) :=
  .connect (process agentId incarnation "") :: steps (.session session) n

def sweeps (now n : ℕ) : List (Action listing) := List.replicate n (.step .sweeper { now := now })

end Controller

end Loadr
