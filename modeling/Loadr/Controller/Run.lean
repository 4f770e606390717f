import Mathlib.Data.Finset.Card
import Loadr.Controller.Registry
import Loadr.Agent.Uplink

/-!
# The controller's state

A distributed run as the controller keeps it, and the tables behind the controller's locks.  The
metrics core is a parameter, `Metering`.

Every field of a run has its own lock, and each function below is one critical section.  Only
`state` is held while others are taken and released again, during the merge of a delta; `stateHeld`
records that.  Left out are the fields that nothing here reads: the plan's scenarios, the shipped
files, the agents' own summaries, the published snapshots and the timeline.
-/

namespace Loadr

open List

/-- The metrics core as the controller uses it (crate `loadr-core`): the merged aggregator, the
agents' deltas and the thresholds evaluated over it. -/
structure Metering where
  Agg : Type
  Delta : Type
  Bytes : Type
  Threshold : Type
  Status : Type
  new : ℕ → Agg
  mergeDelta : Agg → Delta → Agg
  decode : Bytes → Option Delta
  /-- `add_agent_identity`, from an agent's name and id. -/
  addAgentIdentity : Delta → String → String → Delta
  /-- Set every live gauge of the agent to zero. -/
  zeroLiveGauges : Agg → String → Agg
  evaluateAll : List Threshold → Agg → ℕ → List Status × Bool
  snapshot : Agg → ℕ → Agg

inductive RunState
  | pending
  | running
  | stopping
  | finished
  | aborted
  | failed
deriving DecidableEq, Repr

def RunState.isTerminal : RunState → Bool
  | .finished | .aborted | .failed => true
  | _ => false

/-- What to do with an in-flight run when one of its agents is lost. -/
inductive OnAgentLoss
  | keepGoing
  | abort
deriving DecidableEq, Repr

inductive PrepPhase
  | assigned
  | ready
deriving DecidableEq, Repr

structure PrepState where
  phases : Std.ExtTreeMap String PrepPhase compare
  /-- First preparation failure: the reason, and the verdict the barrier finalizes with. -/
  failure : Option (String × RunState)
deriving DecidableEq

structure PendingControl where
  expected : Finset String
  responses : Std.ExtTreeMap String (Except String Unit) compare
  action : ControlAction
  scenario : String
  /-- Whether its waiter has been notified since it last looked. -/
  notify : Bool
deriving DecidableEq

/-- The frozen fleet summary: what it is built from. -/
structure MergedSummary (M : Metering) where
  startedMs : ℕ
  endedMs : ℕ
  aborted : Option String
  statuses : List M.Status
  agg : M.Agg

/-- One distributed run; its id is its key in the run table. -/
structure ControllerRun (M : Metering) where
  planYaml : String
  externallyControlled : List String
  thresholds : List M.Threshold
  onAgentLoss : OnAgentLoss
  assigned : List String
  state : RunState
  /-- A task keeps the state lock across several steps. -/
  stateHeld : Bool
  prep : PrepState
  prepNotify : Bool
  startUnixMs : Option ℤ
  submittedMs : ℕ
  startedMs : Option ℕ
  finishedMs : Option ℕ
  agg : M.Agg
  /-- The terminal event kind of every agent that reported one. -/
  done : Std.ExtTreeMap String EventKind compare
  lost : Finset String
  lostEver : Finset String
  contributing : Finset String
  paused : Option Bool
  pendingControls : Std.ExtTreeMap ℕ PendingControl compare
  mergedSummary : Option (MergedSummary M)
  thresholdStatuses : List M.Status
  abortReason : Option String

structure SubmitOptions where
  agentFilter : Option StringMap
  onAgentLoss : OnAgentLoss
  /-- Milliseconds between the commit and the synchronized start. -/
  startBarrier : ℕ
deriving DecidableEq

/-- A submission that has passed validation. -/
structure Submission (M : Metering) where
  runId : String
  planYaml : String
  externallyControlled : List String
  thresholds : List M.Threshold
  opts : SubmitOptions

namespace ControllerRun

variable {M : Metering}

def submitted (sub : Submission M) (assigned : List String) (now : ℕ) : ControllerRun M where
  planYaml := sub.planYaml
  externallyControlled := sub.externallyControlled
  thresholds := sub.thresholds
  onAgentLoss := sub.opts.onAgentLoss
  assigned := assigned
  state := .pending
  stateHeld := false
  prep :=
    { phases := Std.ExtTreeMap.ofList (assigned.map fun id => (id, PrepPhase.assigned)) compare
      failure := none }
  prepNotify := false
  startUnixMs := none
  submittedMs := now
  startedMs := none
  finishedMs := none
  agg := M.new now
  done := ∅
  lost := ∅
  lostEver := ∅
  contributing := ∅
  paused := some false
  pendingControls := ∅
  mergedSummary := none
  thresholdStatuses := []
  abortReason := none

def assignment (run : ControllerRun M) (runId agentId : String) : Option Assignment :=
  (run.assigned.findIdx? (· == agentId)).map fun index =>
    { runId := runId, planYaml := run.planYaml, partitionIndex := index
      partitionCount := run.assigned.length }

def settled (run : ControllerRun M) (agentId : String) : Bool :=
  run.done.contains agentId || agentId ∈ run.lost

def allReady (run : ControllerRun M) : Bool := run.prep.phases.toList.all (·.2 == .ready)

/-- `record_prep_failure` inside its lock: the first failure of a pending run wins. -/
def recordPrepFailure (run : ControllerRun M) (reason : String) (verdict : RunState) :
    ControllerRun M :=
  if run.prep.failure.isNone then
    { run with prep := { run.prep with failure := some (reason, verdict) } }
  else run

def noteAbort (run : ControllerRun M) (reason : String) : ControllerRun M :=
  if run.abortReason.isNone then { run with abortReason := some reason } else run

def commitStart (run : ControllerRun M) (startUnixMs : ℤ) (now : ℕ) : ControllerRun M :=
  { run with
    startUnixMs := some startUnixMs
    startedMs := some now
    -- re-anchor the rate clock: preparation time must not dilute it
    agg := M.new now
    state := .running }

/-- The verdict of `check_completion` once every assigned agent is settled. -/
def completion (run : ControllerRun M) : Option RunState :=
  if run.assigned.all run.settled then
    some <|
      if run.done.toList.any (·.2 == .failed) || run.done.isEmpty then .failed
      else if run.done.toList.any (·.2 == .aborted) then .aborted
      else .finished
  else none

/-- The terminal transition of `finalize_run`: freeze the summary, then expose the state. -/
def finalize (run : ControllerRun M) (finalState : RunState) (now : ℕ) : ControllerRun M :=
  let statuses := (M.evaluateAll run.thresholds run.agg now).1
  { run with
    finishedMs := some now
    thresholdStatuses := statuses
    mergedSummary := some
      { startedMs := run.startedMs.getD run.submittedMs, endedMs := now
        aborted := run.abortReason, statuses := statuses, agg := run.agg }
    agg := M.snapshot run.agg now
    state := finalState }

/-- `publish_live_snapshot` inside its locks.  The abort flag of the evaluation is not used. -/
def publishLiveSnapshot (run : ControllerRun M) (now : ℕ) : ControllerRun M :=
  { run with
    thresholdStatuses := (M.evaluateAll run.thresholds run.agg now).1
    agg := M.snapshot run.agg now }

/-- The `ControlAck` arm: an answer of an addressed agent to the command as it was sent. -/
def acknowledge (run : ControllerRun M) (agentId : String) (ack : ControlAck) : ControllerRun M :=
  match run.pendingControls[ack.commandId]? with
  | none => run
  | some command =>
    if agentId ∈ command.expected ∧ ack.action = command.action ∧
        ack.scenario = command.scenario then
      let result : Except String Unit :=
        if ack.applied then .ok ()
        else .error (if ack.detail.isEmpty then "agent rejected command" else ack.detail)
      let answered :=
        { command with responses := command.responses.insert agentId result, notify := true }
      { run with pendingControls := run.pendingControls.insert ack.commandId answered }
    else run

end ControllerRun

/-- The controller's tables, and the downlink channel of every session: all items ever queued on it,
oldest first. -/
structure Inner (M : Metering) where
  liveness : ℕ
  agents : Agents
  runs : Std.ExtTreeMap String (ControllerRun M) compare
  sessionCounter : ℕ
  controlCounter : ℕ
  runIds : List String
  downlinks : ℕ → List DownItem

namespace Inner

variable {M : Metering}

def modifyRun (inner : Inner M) (runId : String) (f : ControllerRun M → ControllerRun M) :
    Inner M :=
  { inner with runs := inner.runs.modify runId f }

def enqueue (inner : Inner M) (session : ℕ) (item : DownItem) : Inner M :=
  { inner with
    downlinks := Function.update inner.downlinks session (inner.downlinks session ++ [item]) }

def agentSender (inner : Inner M) (agentId : String) : Option ℕ :=
  inner.agents[agentId]?.map (·.session)

def runSenders (inner : Inner M) (run : ControllerRun M) : List (String × ℕ) :=
  (run.assigned.filter fun id => !run.settled id).filterMap fun id =>
    (inner.agents[id]?.filter (·.connected)).map fun e => (id, e.session)

end Inner

namespace Agents

/-- `reserve_agents` marks every connected, fresh, matching and unreserved agent; the selection is
in id order. -/
def reservable (liveness now : ℕ) (filter : Option StringMap) (e : AgentEntry) : Bool :=
  e.connected && decide (now - e.lastHeartbeat ≤ liveness) &&
    (filter.all fun filter => filter.toList.all fun kv => e.labels[kv.1]? == some kv.2)

def reserveAgents (agents : Agents) (liveness now : ℕ) (filter : Option StringMap)
    (runId : String) : Option (List (String × ℕ) × Agents) :=
  let selected := agents.toList.filter fun (_, e) =>
    reservable liveness now filter e && e.activeRun.isNone
  if selected.isEmpty then none
  else
    some (selected.map fun (id, e) => (id, e.session),
      selected.foldl (fun agents (id, e) => agents.insert id { e with activeRun := some runId })
        agents)

/-- Compare-and-clear the reservations a run holds. -/
def releaseReservations (agents : Agents) (runId : String) (assigned : List String) : Agents :=
  assigned.foldl (fun agents id =>
    match agents[id]? with
    | some e => if e.activeRun = some runId then agents.insert id { e with activeRun := none }
      else agents
    | none => agents) agents

def setActiveVus (agents : Agents) (agentId : String) (activeVus : ℕ) : Agents :=
  match agents[agentId]? with
  | some e => agents.insert agentId { e with activeVus := activeVus }
  | none => agents

def stale (agents : Agents) (liveness now : ℕ) : List String :=
  (agents.toList.filter fun (_, e) => decide (liveness < now - e.lastHeartbeat)).map (·.1)

/-! ## Lookups -/

variable {agents agents' : Agents}

theorem getElem?_setActiveVus (agents : Agents) (a : String) (n : ℕ) (id : String) :
    (agents.setActiveVus a n)[id]? =
      agents[id]?.map fun e => if id = a then { e with activeVus := n } else e := by
  unfold setActiveVus
  by_cases hid : id = a
  · subst hid
    cases he : agents[id]? with
    | none => simpa using he
    | some e => simp
  · cases agents[a]? with
    | none => simp [hid]
    | some e => simp [hid, Std.ExtTreeMap.getElem?_insert, Ne.symm hid]

theorem getElem?_releaseReservations (agents : Agents) (R : String) (assigned : List String)
    (id : String) :
    (agents.releaseReservations R assigned)[id]? = agents[id]?.map fun e =>
      if id ∈ assigned ∧ e.activeRun = some R then { e with activeRun := none } else e := by
  unfold releaseReservations
  induction assigned generalizing agents with
  | nil => simp
  | cons a assigned ih =>
    rw [foldl_cons, ih]
    by_cases hid : id = a
    · subst hid
      cases he : agents[id]? with
      | none => simp [he]
      | some e =>
        by_cases hR : e.activeRun = some R
        · simp [hR]
        · simp [hR, he]
    · cases agents[a]? with
      | none => simp [hid]
      | some e =>
        dsimp only
        split_ifs
        · simp [hid, Std.ExtTreeMap.getElem?_insert, Ne.symm hid]
        · simp [hid]

theorem getElem?_foldl_insert (f : AgentEntry → AgentEntry) (l : List (String × AgentEntry))
    (hl : ∀ p ∈ l, agents[p.1]? = some p.2) (acc : Agents) (id : String) :
    (l.foldl (fun acc p => acc.insert p.1 (f p.2)) acc)[id]? =
      if id ∈ l.map (·.1) then agents[id]?.map f else acc[id]? := by
  induction l generalizing acc with
  | nil => simp
  | cons p l ih =>
    rw [foldl_cons, ih fun q hq => hl q (mem_cons_of_mem _ hq)]
    by_cases hmem : id ∈ l.map (·.1)
    · rw [if_pos hmem, map_cons, if_pos (mem_cons_of_mem _ hmem)]
    · rw [if_neg hmem]
      by_cases hid : id = p.1
      · subst hid
        rw [Std.ExtTreeMap.getElem?_insert_self, if_pos (by simp), hl p mem_cons_self]
        rfl
      · rw [if_neg (by simpa [hid] using hmem)]
        simp [Std.ExtTreeMap.getElem?_insert, Ne.symm hid]

theorem getElem?_reserveAgents {liveness now : ℕ} {filter : Option StringMap} {R : String}
    {selected : List (String × ℕ)}
    (h : agents.reserveAgents liveness now filter R = some (selected, agents')) (id : String) :
    (agents'[id]? = agents[id]? ∧ id ∉ selected.map (·.1)) ∨
      ∃ e, agents[id]? = some e ∧ e.activeRun = none ∧ e.connected = true ∧
        (∀ k, (id, k) ∈ selected ↔ k = e.session) ∧
        agents'[id]? = some { e with activeRun := some R } := by
  unfold reserveAgents at h
  dsimp only at h
  split_ifs at h
  obtain ⟨hsel, rfl⟩ := Prod.mk.inj (Option.some.inj h)
  have hentries : ∀ p ∈ agents.toList.filter fun p =>
      reservable liveness now filter p.2 && p.2.activeRun.isNone, agents[p.1]? = some p.2 :=
    fun p hp => Std.ExtTreeMap.mem_toList_iff_getElem?_eq_some.1 (mem_filter.1 hp).1
  have hlookup := getElem?_foldl_insert (fun e => { e with activeRun := some R }) _ hentries
    agents id
  by_cases hid : id ∈ (agents.toList.filter fun p =>
      reservable liveness now filter p.2 && p.2.activeRun.isNone).map (·.1)
  · rw [if_pos hid] at hlookup
    obtain ⟨⟨id', e⟩, hp, rfl⟩ := mem_map.1 hid
    have he := hentries _ hp
    have hcond := (mem_filter.1 hp).2
    simp only [reservable, Bool.and_eq_true, Option.isNone_iff_eq_none] at hcond
    refine .inr ⟨e, he, hcond.2, hcond.1.1.1, fun k => ?_, ?_⟩
    · subst hsel
      constructor
      · intro hk
        obtain ⟨⟨id₂, e₂⟩, hp₂, hk⟩ := mem_map.1 hk
        cases hk
        have := hentries _ hp₂
        rw [he] at this
        cases this
        rfl
      · rintro rfl
        exact mem_map.2 ⟨_, hp, rfl⟩
    · exact hlookup.trans (by rw [he]; rfl)
  · rw [if_neg hid] at hlookup
    refine .inl ⟨hlookup, ?_⟩
    subst hsel
    simpa [map_map, Function.comp_def] using hid

end Agents

end Loadr
