import Loadr.Controller.System

/-!
# What an operation can do

`Attributed` says for each part of an operation's outcome where it comes from: how a run changes
(`RunEffect`), what else happens to the tables (`TableEffect`), which operation puts another one
ahead and what it found (`Origin`), and which events are logged (`Logs`).  The results about the
controller are proved from these.
-/

namespace Loadr

open List Option Function

namespace Controller

variable {M : Metering} {env : Env M} {inner : Inner M} {op : Op M} {o : Outcome M}
  {runId : String} {run : ControllerRun M}

theorem withRun_cases (inner : Inner M) (runId : String) (f : ControllerRun M → Outcome M) :
    inner.runs[runId]? = none ∧ withRun inner runId f = { shared := inner } ∨
      ∃ run, inner.runs[runId]? = some run ∧ withRun inner runId f = f run := by
  unfold withRun
  cases inner.runs[runId]? with
  | none => exact .inl ⟨rfl, rfl⟩
  | some run => exact .inr ⟨run, rfl, rfl⟩

theorem withState_cases {f : ControllerRun M → Outcome M}
    (h : withState inner runId f = some o) :
    inner.runs[runId]? = none ∧ o = { shared := inner } ∨
      ∃ run, inner.runs[runId]? = some run ∧ run.stateHeld = false ∧ o = f run := by
  unfold withState at h
  cases hr : inner.runs[runId]? with
  | none =>
    rw [hr] at h
    exact .inl ⟨rfl, (some.inj h).symm⟩
  | some run =>
    rw [hr] at h
    cases hs : run.stateHeld with
    | true => simp [hs] at h
    | false =>
      simp only [hs, Bool.false_eq_true, if_false, some.injEq] at h
      exact .inr ⟨run, rfl, hs, h.symm⟩

theorem withState_some {f : ControllerRun M → Outcome M} (h : withState inner runId f = some o)
    (hr : inner.runs[runId]? = some run) : run.stateHeld = false ∧ o = f run := by
  rcases withState_cases h with ⟨hn, -⟩ | ⟨run', hr', hheld, rfl⟩
  · cases hn.symm.trans hr
  · cases hr.symm.trans hr'
    exact ⟨hheld, rfl⟩

/-! ## Runs -/

theorem getElem?_modifyRun_self (inner : Inner M) (runId : String)
    (f : ControllerRun M → ControllerRun M) :
    (inner.modifyRun runId f).runs[runId]? = inner.runs[runId]?.map f := by
  simp [Inner.modifyRun]

theorem getElem?_modifyRun (hr : inner.runs[runId]? = some run)
    (f : ControllerRun M → ControllerRun M) :
    (inner.modifyRun runId f).runs[runId]? = some (f run) := by
  rw [getElem?_modifyRun_self, hr, map_some]

theorem getElem?_modifyRun_of_ne {runId' : String} (h : runId' ≠ runId) (inner : Inner M)
    (f : ControllerRun M → ControllerRun M) :
    (inner.modifyRun runId f).runs[runId']? = inner.runs[runId']? := by
  simp [Inner.modifyRun, Std.ExtTreeMap.getElem?_modify, Ne.symm h]

/-- How an operation can change the run `runId`. -/
inductive RunEffect (env : Env M) (runId : String) (run : ControllerRun M) :
    Op M → ControllerRun M → Prop
  | restartedLost (a : String) :
    RunEffect env runId run (.restartedLost a runId) { run with lost := insert a run.lost }
  | resumeLost (a : String) :
    RunEffect env runId run (.resumeLost a runId) { run with lost := run.lost.erase a }
  | acknowledge (rc : Received) (ack : ControlAck) : ack.runId = runId →
    RunEffect env runId run (.applyAgentMessage rc (.controlAck ack))
      { run with pendingControls := (run.acknowledge rc.agentId ack).pendingControls }
  | deltaState (rc : Received) (delta : M.Delta) : run.stateHeld = false →
    run.state.isTerminal = false →
    RunEffect env runId run (.deltaState rc runId delta) { run with stateHeld := true }
  | deltaContributing (rc : Received) (delta : M.Delta) :
    RunEffect env runId run (.deltaContributing rc runId delta)
      { run with contributing := insert rc.agentId run.contributing }
  | deltaMerge (rc : Received) (delta : M.Delta) :
    RunEffect env runId run (.deltaMerge rc runId delta)
      { run with agg := M.mergeDelta run.agg delta }
  | deltaRelease : RunEffect env runId run (.deltaRelease runId) { run with stateHeld := false }
  | markReady (a : String) (i : ℕ) : run.stateHeld = false → run.state.isTerminal = false →
    RunEffect env runId run (.markReady a runId i)
      { run with prep := { run.prep with phases := run.prep.phases.insert a .ready } }
  | eventStarted : run.stateHeld = false → run.state = .pending →
    RunEffect env runId run (.eventStarted runId) { run with state := .running }
  | recordPrepFailure (reason : String) (verdict : RunState) (after : AfterStart) :
    run.stateHeld = false → run.state = .pending →
    RunEffect env runId run (.recordPrepFailure runId reason verdict after)
      { run with
        prep := { run.prep with failure := some (run.prep.failure.getD (reason, verdict)) } }
  | notifyPrep : RunEffect env runId run (.notifyPrep runId) { run with prepNotify := true }
  | noteAbort (reason : String) :
    RunEffect env runId run (.noteAbort runId reason)
      { run with abortReason := (run.noteAbort reason).abortReason }
  | zeroLiveGauges (a : String) :
    RunEffect env runId run (.zeroLiveGauges a runId)
      { run with agg := M.zeroLiveGauges run.agg a }
  | markDone (a : String) (kind : EventKind) :
    RunEffect env runId run (.markDone a runId kind) { run with done := run.done.insert a kind }
  | finalize (verdict : RunState) : run.stateHeld = false → run.state.isTerminal = false →
    RunEffect env runId run (.finalize runId verdict) (run.finalize verdict env.now)
  | sweepLost (a : String) :
    RunEffect env runId run (.sweepLost a runId) { run with lost := insert a run.lost }
  | sweepLostEver (a : String) :
    RunEffect env runId run (.sweepLostEver a runId)
      { run with lostEver := insert a run.lostEver }
  | commitStart (startBarrier : ℕ) : run.stateHeld = false → run.state.isTerminal = false →
    run.prep.failure = none → run.allReady = true →
    RunEffect env runId run (.barrierCheck runId startBarrier)
      (run.commitStart (env.now + startBarrier) env.now)
  | unpark (startBarrier : ℕ) : run.prepNotify = true →
    RunEffect env runId run (.barrierPark runId startBarrier) { run with prepNotify := false }
  | publishLiveSnapshot : run.stateHeld = false → run.state.isTerminal = false →
    RunEffect env runId run (.publishLiveSnapshot runId) (run.publishLiveSnapshot env.now)
  | controlInsert (call : ControlCall) (targets : List (String × ℕ))
    (p : Std.ExtTreeMap ℕ PendingControl compare) : call.runId = runId →
    RunEffect env runId run (.controlInsert call targets) { run with pendingControls := p }
  | controlSend (a : String) (k : ℕ) (c : Control) : c.runId = runId →
    RunEffect env runId run (.controlSend a k c)
      { run with pendingControls := run.pendingControls.modify c.commandId fun pending =>
        { pending with
          responses := pending.responses.insert a (.error "could not deliver command") } }
  | controlPark (call : ControlCall) (n : ℕ) :
    RunEffect env runId run (.controlPark call n)
      { run with pendingControls := run.pendingControls.modify n fun pending =>
        { pending with notify := false } }
  | controlTimeout (call : ControlCall) (n : ℕ) : call.runId = runId →
    RunEffect env runId run (.controlTimeout call n)
      { run with pendingControls := run.pendingControls.erase n }
  | controlFinish (call : ControlCall) (n : ℕ) : call.runId = runId →
    RunEffect env runId run (.controlFinish call n)
      { run with pendingControls := run.pendingControls.erase n }
  | setPaused (paused : Option Bool) :
    RunEffect env runId run (.setPaused runId paused) { run with paused := paused }
  | setStopping : run.stateHeld = false → run.state.isTerminal = false →
    RunEffect env runId run (.setStopping runId) { run with state := .stopping }

/-- What the barrier has to find to commit the start. -/
structure MayStart (run : ControllerRun M) : Prop where
  free : run.stateHeld = false
  live : run.state.isTerminal = false
  unfailed : run.prep.failure = none
  ready : run.allReady = true

theorem recordPrepFailure_eq (run : ControllerRun M) (reason : String) (verdict : RunState) :
    run.recordPrepFailure reason verdict =
      { run with
        prep := { run.prep with failure := some (run.prep.failure.getD (reason, verdict)) } } := by
  unfold ControllerRun.recordPrepFailure
  cases hf : run.prep.failure with
  | none => rfl
  | some failure => rw [isNone_some, if_neg (by decide), getD_some, ← hf]

theorem noteAbort_eq (run : ControllerRun M) (reason : String) :
    run.noteAbort reason = { run with abortReason := (run.noteAbort reason).abortReason } := by
  unfold ControllerRun.noteAbort
  split_ifs <;> rfl

theorem acknowledge_eq (run : ControllerRun M) (agentId : String) (ack : ControlAck) :
    run.acknowledge agentId ack =
      { run with pendingControls := (run.acknowledge agentId ack).pendingControls } := by
  unfold ControllerRun.acknowledge
  repeat' split
  all_goals rfl

section

variable {run' : ControllerRun M}

section

variable (h : RunEffect env runId run op run')
include h

theorem RunEffect.terminal_stable (ht : run.state.isTerminal = true) : run'.state = run.state := by
  cases h
  case eventStarted _ hp =>
    rw [hp] at ht
    cases ht
  case finalize hlive | commitStart hlive _ _ | setStopping hlive => cases hlive.symm.trans ht
  all_goals rfl

theorem RunEffect.terminal_mono (ht : run.state.isTerminal = true) :
    run'.state.isTerminal = true := by
  rw [h.terminal_stable ht, ht]

theorem RunEffect.terminal_cases (ht : run'.state.isTerminal = true) :
    run.state.isTerminal = true ∨
      ∃ verdict, op = .finalize runId verdict ∧ run.stateHeld = false ∧
        run.state.isTerminal = false := by
  cases h
  case finalize verdict hheld hlive => exact .inr ⟨verdict, rfl, hheld, hlive⟩
  case eventStarted | commitStart | setStopping => cases ht
  all_goals exact .inl ht

theorem RunEffect.start_cases :
    run'.startUnixMs = run.startUnixMs ∨
      ∃ b : ℕ, op = .barrierCheck runId b ∧ MayStart run ∧
        run' = run.commitStart (env.now + b) env.now := by
  cases h
  case commitStart b hheld ht hf hr => exact .inr ⟨b, rfl, ⟨hheld, ht, hf, hr⟩, rfl⟩
  all_goals exact .inl rfl

theorem RunEffect.failure_mono (hf : run.prep.failure.isSome = true) :
    run'.prep.failure.isSome = true := by
  cases h
  case recordPrepFailure => rfl
  all_goals exact hf

theorem RunEffect.assigned_eq : run'.assigned = run.assigned := by
  cases h <;> rfl

end

end

def RunStep (env : Env M) (op : Op M) (runId : String) (before after : Option (ControllerRun M)) :
    Prop :=
  after = before ∨
    (∃ run run', before = some run ∧ after = some run' ∧ RunEffect env runId run op run') ∨
    ∃ sub selected, op = .insertRun sub selected ∧ sub.runId = runId ∧
      after = some (.submitted sub (selected.map (·.1)) env.now)

/-! ## Programs -/

def NotPending (inner : Inner M) (runId : String) : Prop :=
  ∃ run, inner.runs[runId]? = some run ∧ run.state ≠ .pending

def CommittedAt (inner : Inner M) (runId : String) (startUnixMs : ℤ) : Prop :=
  ∃ run, inner.runs[runId]? = some run ∧ run.startUnixMs = some startUnixMs

def Unfinished (inner : Inner M) (a R : String) : Prop :=
  ∃ run, inner.runs[R]? = some run ∧ run.done.contains a = false

def pauseAction (b : Bool) : ControlAction := if b then .pause else .resume

def answers (run : ControllerRun M) (commandId : ℕ) : List (String × Except String Unit) :=
  ((run.pendingControls[commandId]?.map PendingControl.responses).getD ∅).toList

/-- Which operation put `op'` ahead, and what it found.  Operations that no result below asks about
may come from anywhere. -/
def Origin (env : Env M) (inner : Inner M) (op : Op M) : Op M → Prop
  | .registerAgent .. | .reserveAgents _ | .controlRun _ => False
  | .pump a s => (∃ reg, op = .registerAgent reg s ∧ reg.agentId = a) ∨
      ∃ msg, op = .admitMessage a s msg
  | .admitMessage a s msg => op = .pump a s ∧ env.inbound = .message msg
  | .applyAgentMessage rc m =>
    ∃ msg, op = .admitMessage rc.agentId rc.session msg ∧ msg.msg = m ∧ m.subject = rc.subject
  | .applied rc => ∃ msg, op = .admitMessage rc.agentId rc.session msg
  | .deltaName rc R _ => ∃ json, op = .applyAgentMessage rc (.metrics R json) ∧ R ∈ inner.runs
  | .deltaState rc R delta' => ∃ delta name, op = .deltaName rc R delta ∧
      delta' = M.addAgentIdentity delta name rc.agentId
  | .deltaContributing rc R delta => op = .deltaState rc R delta
  | .deltaMerge rc R delta => op = .deltaContributing rc R delta
  | .resumeRun a R => ∃ reg k, op = .registerAgent reg k ∧ reg.agentId = a ∧
      reg.resumeRunId = R ∧ R ≠ "" ∧ (inner.agents.register reg k env.now).1.restarted = false
  | .resumeDone a R => op = .resumeRun a R ∧ ∃ run, inner.runs[R]? = some run ∧
      a ∈ run.assigned ∧ run.state.isTerminal = false
  | .resumeLost a R => op = .resumeDone a R ∧ Unfinished inner a R
  | .resumePhase a R => op = .resumeLost a R
  | .resumeStart a R => op = .resumePhase a R
  | .resumeSender a R t => op = .resumeStart a R ∧ CommittedAt inner R t
  | .send _ (.msg (.start R t)) => (∃ a, op = .resumeSender a R t) ∨ op = .broadcastStart R t
  | .eventStarted R => ∃ rc ev, op = .applyAgentMessage rc (.event ev) ∧ ev.kind = .started ∧
      ev.runId = R
  | .markReady a R i => ∃ rc, op = .applyAgentMessage rc (.assignmentReady R i) ∧ rc.agentId = a ∧
      ∃ run, inner.runs[R]? = some run ∧ run.assigned.findIdx? (· == a) = some i
  | .recordPrepFailure R _ verdict after => verdict.isTerminal = true ∧ match after with
    | .nothing => ∃ rc ev, op = .applyAgentMessage rc (.event ev) ∧ ev.kind = .prepFailed ∧
        ev.runId = R
    | .restarted a => op = .terminateParticipation a R
    | .lost newly => op = .sweepFilter R [] newly
    | .control call => op = .controlRun call ∧ R = call.runId
  | .finalize R verdict => verdict.isTerminal = true ∨ ∃ b run reason, op = .barrierCheck R b ∧
      inner.runs[R]? = some run ∧ run.prep.failure = some (reason, verdict)
  | .controlTargets call => NotPending inner call.runId ∧ op = .controlState call ∨
      ∃ R reason verdict, NotPending inner R ∧
        op = .recordPrepFailure R reason verdict (.control call)
  | .controlInsert call targets => op = .controlTargets call ∧ ∃ run,
      inner.runs[call.runId]? = some run ∧ targets = inner.runSenders run
  | .controlWait call n => (∃ targets, op = .controlInsert call targets) ∨ op = .controlPark call n
  | .controlPark call n => op = .controlWait call n
  | .controlFinish call n => op = .controlWait call n ∧ ∃ run,
      inner.runs[call.runId]? = some run ∧ controlComplete run n = true
  | .controlTimeout call n => op = .controlPark call n
  | .setStopping R => ∃ call n, call.runId = R ∧ op = .controlFinish call n
  | .insertRun sub selected => op = .reserveAgents sub ∧ ∃ agents,
      inner.agents.reserveAgents inner.liveness env.now sub.opts.agentFilter sub.runId =
        some (selected, agents)
  | .spawnBarrier R _ => ∃ sub selected, op = .insertRun sub selected ∧ sub.runId = R
  | .barrierCheck R b => op = .barrierPark R b
  | .barrierPark R b => op = .barrierCheck R b
  | .barrierTimeout R => ∃ b, op = .barrierPark R b
  | .broadcastStart R t => ∃ b run, op = .barrierCheck R b ∧ inner.runs[R]? = some run ∧
      MayStart run ∧ t = env.now + b
  | .broadcastDone R => ∃ t, op = .broadcastStart R t
  | .terminateParticipation a R => ∃ reg k, op = .registerAgent reg k ∧ reg.agentId = a ∧
      (inner.agents.register reg k env.now).1.followup = .terminateParticipation R
  | .replayAssignment a R => ∃ reg k, op = .registerAgent reg k ∧ reg.agentId = a ∧
      (inner.agents.register reg k env.now).1.followup = .maybeReplayAssignment R
  | .restartedState a R => NotPending inner R ∧
      ∃ reason verdict, op = .recordPrepFailure R reason verdict (.restarted a)
  | .restartedDone a R => op = .restartedState a R
  | .restartedLost a R => op = .restartedDone a R ∧ Unfinished inner a R
  | .replayDone a R => op = .replayAssignment a R
  | .replayLost a R => op = .replayDone a R
  | .sendAssignment a R => op = .replayLost a R ∨ op = .resumePhase a R
  | .send k (.msg (.assignment x)) =>
    (∃ a run, op = .sendAssignment a x.runId ∧ inner.agentSender a = some k ∧
      inner.runs[x.runId]? = some run ∧ a ∈ run.assigned) ∨
    ∃ sub selected, op = .insertRun sub selected ∧ x.runId = sub.runId ∧
      ∃ target ∈ selected, target.2 = k
  | .send _ (.msg (.control c)) => c.commandId = 0
  | .markDisconnected a k => op = .pump a k ∨ ∃ msg, op = .admitMessage a k msg
  | .deltaLost rc R => ∃ delta, op = .deltaMerge rc R delta
  | .deltaDone rc R lost => op = .deltaLost rc R ∧ ∃ run, inner.runs[R]? = some run ∧
      lost = decide (rc.agentId ∈ run.lost)
  | .deltaRelease R => ∃ rc lost, op = .deltaDone rc R lost
  | .zeroLiveGauges a R =>
    (∃ rc ev, op = .applyAgentMessage rc (.event ev) ∧ rc.agentId = a ∧ ev.runId = R ∧
      ev.kind.isTerminal = true) ∨
    (∃ newly, op = .sweepFilter R [] newly ∧ a ∈ newly) ∨
    ∃ rc lost, op = .deltaDone rc R lost ∧ rc.agentId = a
  | .markDone a R kind => ∃ rc ev, op = .applyAgentMessage rc (.event ev) ∧ rc.agentId = a ∧
      ev.runId = R ∧ ev.kind = kind ∧ kind.isTerminal = true
  | .sweep => op = .sweep
  | .sweepRuns lostIds => op = .sweep ∧
      ∀ id ∈ lostIds, id ∈ inner.agents.stale inner.liveness env.now
  | .sweepRun _ lostIds => op = .sweepRuns lostIds
  | .sweepFilter R lostIds newly => op = .sweepRun R lostIds ∧ newly = [] ∨
      ∃ id newly', op = .sweepFilter R (id :: lostIds) newly' ∧
        ∀ id' ∈ newly, id' = id ∨ id' ∈ newly'
  | .sweepLost a R | .sweepLostEver a R => ∃ newly, op = .sweepFilter R [] newly ∧ a ∈ newly
  | .releaseReservations R => ∃ verdict, op = .finalize R verdict
  | .controlState call => op = .controlRun call
  | .controlSend a k c => ∃ call targets, op = .controlInsert call targets ∧ (a, k) ∈ targets ∧
      c.runId = call.runId ∧ c.action = call.action ∧ c.commandId = inner.controlCounter + 1
  | .setPaused R paused => ∃ call n, call.runId = R ∧
      (paused = none ∧ op = .controlTimeout call n ∨ op = .controlFinish call n ∧
        ∀ b, paused = some b → call.action = pauseAction b ∧ ∃ run, inner.runs[R]? = some run ∧
          ∀ answer ∈ answers run n, answer.2.isOk = true)
  | _ => True

/-! ## Tables and events -/

/-- How an operation can change the tables other than through a run. -/
inductive TableEffect (env : Env M) (inner : Inner M) : Op M → Inner M → Prop
  | runs (op : Op M) (runs : Std.ExtTreeMap String (ControllerRun M) compare) :
    TableEffect env inner op { inner with runs := runs }
  | controlInsert (call : ControlCall) (targets : List (String × ℕ))
    (runs : Std.ExtTreeMap String (ControllerRun M) compare) :
    TableEffect env inner (.controlInsert call targets)
      { inner with runs := runs, controlCounter := inner.controlCounter + 1 }
  | registerAgent (reg : Register) (s : ℕ) :
    TableEffect env inner (.registerAgent reg s)
      { inner with agents := (inner.agents.register reg s env.now).2 }
  | heartbeat (rc : Received) (activeVus : ℕ) :
    TableEffect env inner (.applyAgentMessage rc (.heartbeat activeVus))
      { inner with agents := inner.agents.setActiveVus rc.agentId activeVus }
  | markDisconnected (a : String) (s : ℕ) :
    TableEffect env inner (.markDisconnected a s)
      { inner with agents := inner.agents.markDisconnected a s }
  | releaseReservations (R : String) (assigned : List String) :
    TableEffect env inner (.releaseReservations R)
      { inner with agents := inner.agents.releaseReservations R assigned }
  | reserveAgents (sub : Submission M) (selected : List (String × ℕ)) (agents : Agents) :
    inner.agents.reserveAgents inner.liveness env.now sub.opts.agentFilter sub.runId =
      some (selected, agents) →
    TableEffect env inner (.reserveAgents sub) { inner with agents := agents }
  | send (s : ℕ) (item : DownItem) : env.room = true →
    TableEffect env inner (.send s item) (inner.enqueue s item)
  | controlSend (a : String) (s : ℕ) (c : Control) :
    TableEffect env inner (.controlSend a s c) (inner.enqueue s (.msg (.control c)))
  | admitMessage (a : String) (s : ℕ) (msg : AgentMessage (AgentMsg M.Bytes)) :
    TableEffect env inner (.admitMessage a s msg)
      { inner with agents := (inner.agents.admitMessage a s msg.seq env.now).2 }
  | acknowledge (a : String) (s : ℕ) (msg : AgentMessage (AgentMsg M.Bytes)) (seq : ℕ) :
    TableEffect env inner (.admitMessage a s msg)
      (Inner.enqueue { inner with agents := (inner.agents.admitMessage a s msg.seq env.now).2 } s
        (.msg (.uplinkAck seq)))

/-- Which operation logs an event, and what it found. -/
def Logs (env : Env M) (inner : Inner M) (op : Op M) : Event → Prop
  | .registered a s resume restarted => ∃ reg, op = .registerAgent reg s ∧ reg.agentId = a ∧
      reg.resumeRunId = resume ∧ restarted = (inner.agents.register reg s env.now).1.restarted
  | .refused a R => op = .resumeRun a R ∧
      ∃ run, inner.runs[R]? = some run ∧ run.state.isTerminal = true
  | .admitted rc => ∃ msg, op = .admitMessage rc.agentId rc.session msg
  | .applying rc => ∃ msg, op = .applyAgentMessage rc msg
  | .merged rc R => ∃ delta, op = .deltaMerge rc R delta
  | .dropped rc R why => (∃ json, op = .applyAgentMessage rc (.metrics R json)) ∨
      why = .frozen ∧ ∃ delta, op = .deltaState rc R delta
  | .applied rc => op = .applied rc
  | .ready R a i => op = .markReady a R i
  | .prepFailure R => ∃ reason verdict after run, op = .recordPrepFailure R reason verdict after ∧
      inner.runs[R]? = some run ∧ run.state = .pending
  | .barrierSpawned R => ∃ b, op = .spawnBarrier R b
  | .timedOut R => ∃ b, op = .barrierPark R b
  | .committed R t state failure assigned => ∃ b run, op = .barrierCheck R b ∧
      inner.runs[R]? = some run ∧ MayStart run ∧ t = env.now + b ∧ state = run.state ∧
      failure = none ∧ assigned = run.assigned
  | .broadcast R => op = .broadcastDone R
  | .sent s item => op = .send s item ∨ (∃ c, item = .msg (.control c)) ∨
      ∃ n, item = .msg (.uplinkAck n)
  | .finalized R verdict => op = .finalize R verdict
  | .controlReturned n T ok => ok = true → ∃ call run pending, op = .controlFinish call n ∧
      inner.runs[call.runId]? = some run ∧ run.pendingControls[n]? = some pending ∧
      T = pending.expected ∧ ∀ answer ∈ answers run n, answer.2.isOk = true

def received (inner : Inner M) (a : String) (s : ℕ) (msg : AgentMessage (AgentMsg M.Bytes)) :
    Received :=
  { agentId := a, session := s, seq := msg.seq, subject := msg.msg.subject
    incarnation := (inner.agents[a]?.map (·.incarnation)).getD "" }

/-- What the pump does with a message: hand it on, skip it, or end a session that was replaced. -/
inductive Pumped (inner : Inner M) (a : String) (s : ℕ) (msg : AgentMessage (AgentMsg M.Bytes)) :
    List (Op M) → List Event → Prop
  | apply (f : Agents.Fence) : inner.agents.fence a = some f → f.session = s →
    (received inner a s msg).incarnation = f.incarnation → (msg.seq = 0 ∨ f.lastSeq < msg.seq) →
    Pumped inner a s msg [.applyAgentMessage (received inner a s msg) msg.msg,
      .applied (received inner a s msg), .pump a s] [.admitted (received inner a s msg)]
  | duplicate : Pumped inner a s msg [.pump a s] []
  | stale : Pumped inner a s msg [.markDisconnected a s] []

def Spawns (op : Op M) (spawned : List (TaskId × List (Op M))) : Prop :=
  spawned = [] ∨ (∃ R b, op = .spawnBarrier R b ∧ spawned = [(.barrier R, [.barrierCheck R b])]) ∨
    ∃ R, op = .broadcastDone R ∧ spawned = [(.ticker R, [.tick R])]

/-- Every part of the outcome is one listed for the operation. -/
structure Attributed (env : Env M) (inner : Inner M) (op : Op M) (o : Outcome M) : Prop where
  runs (runId : String) : RunStep env op runId inner.runs[runId]? o.shared.runs[runId]?
  shared : TableEffect env inner op o.shared
  ops : ∀ op' ∈ o.ops, Origin env inner op op'
  events : ∀ e ∈ o.events, Logs env inner op e
  spawned : Spawns op o.spawned

/-! ## Rules -/

variable {c : Prop} {R : String} {verdict : RunState} {item : DownItem} {s : State M} {t : TaskId}
  {rest : List (Op M)}

section

variable {P : Op M → Prop}

theorem forall_mem_ite [Decidable c] {l l' : List (Op M)} (h : c → ∀ op' ∈ l, P op')
    (h' : ¬c → ∀ op' ∈ l', P op') : ∀ op' ∈ (if c then l else l'), P op' := by
  split_ifs with hc
  · exact h hc
  · exact h' hc

theorem forall_mem_unless [Decidable c] {a : Op M} (h : ¬c → P a) :
    ∀ op' ∈ (if c then [] else [a]), P op' :=
  forall_mem_ite (fun _ => forall_mem_nil P) fun hc => forall_mem_singleton.2 (h hc)

end

theorem follows_nil : ∀ op' ∈ ([] : List (Op M)), Origin env inner op op' := forall_mem_nil _

theorem follows_one {a : Op M} (h : Origin env inner op a) : ∀ op' ∈ [a], Origin env inner op op' :=
  forall_mem_singleton.2 h

namespace Attributed

variable {ops : List (Op M)} {events : List Event} {f : ControllerRun M → Outcome M}

theorem table {inner' : Inner M} (hruns : inner'.runs = inner.runs)
    (hs : TableEffect env inner op inner') (ho : ∀ op' ∈ ops, Origin env inner op op')
    (he : ∀ e ∈ events, Logs env inner op e) :
    Attributed env inner op { shared := inner', ops := ops, events := events } :=
  ⟨fun runId => .inl (congrArg (·[runId]?) hruns), hs, ho, he, .inl rfl⟩

theorem quiet (ho : ∀ op' ∈ ops, Origin env inner op op')
    (he : ∀ e ∈ events, Logs env inner op e) :
    Attributed env inner op { shared := inner, ops := ops, events := events } :=
  table rfl (.runs op inner.runs) ho he

theorem next (ho : ∀ op' ∈ ops, Origin env inner op op') :
    Attributed env inner op { shared := inner, ops := ops } :=
  quiet ho (forall_mem_nil _)

theorem spawn {spawned : List (TaskId × List (Op M))} (hs : Spawns op spawned)
    (he : ∀ e ∈ events, Logs env inner op e) :
    Attributed env inner op { shared := inner, spawned := spawned, events := events } :=
  ⟨fun _ => .inl rfl, .runs op inner.runs, follows_nil, he, hs⟩

variable {g : ControllerRun M → ControllerRun M}

theorem runStep_modifyRun {inner' : Inner M} (hruns : inner'.runs = inner.runs)
    (hr : ∀ run, inner.runs[R]? = some run → RunEffect env R run op (g run)) (runId : String) :
    RunStep env op runId inner.runs[runId]? (inner'.modifyRun R g).runs[runId]? := by
  rw [← hruns] at hr ⊢
  by_cases hR : runId = R
  · subst hR
    rw [getElem?_modifyRun_self]
    cases h : inner'.runs[runId]? with
    | none => exact .inl rfl
    | some run => exact .inr (.inl ⟨run, g run, rfl, rfl, hr run h⟩)
  · exact .inl (getElem?_modifyRun_of_ne hR _ _)

section

variable (hr : ∀ run, inner.runs[R]? = some run → RunEffect env R run op (g run))
  (ho : ∀ op' ∈ ops, Origin env inner op op')
include hr ho

theorem change (he : ∀ e ∈ events, Logs env inner op e) :
    Attributed env inner op
      { shared := inner.modifyRun R g, ops := ops, events := events } :=
  ⟨runStep_modifyRun rfl hr, .runs op _, ho, he, .inl rfl⟩

theorem update : Attributed env inner op { shared := inner.modifyRun R g, ops := ops } :=
  change hr ho (forall_mem_nil _)

end

theorem found (h : inner.runs[R]? = some run) (hr : RunEffect env R run op (g run))
    (ho : ∀ op' ∈ ops, Origin env inner op op') (he : ∀ e ∈ events, Logs env inner op e) :
    Attributed env inner op
      { shared := inner.modifyRun R g, ops := ops, events := events } :=
  Attributed.change (fun _ h' => some.inj (h.symm.trans h') ▸ hr) ho he

theorem of_some {o' : Outcome M} (h : some o' = some o) (ho : Attributed env inner op o') :
    Attributed env inner op o :=
  some.inj h ▸ ho

theorem ite [Decidable c] {o' : Outcome M} (h : c → Attributed env inner op o)
    (h' : ¬c → Attributed env inner op o') : Attributed env inner op (if c then o else o') := by
  split_ifs with hc
  · exact h hc
  · exact h' hc

theorem withRun (h : ∀ run, inner.runs[R]? = some run → Attributed env inner op (f run)) :
    Attributed env inner op (withRun inner R f) := by
  rcases withRun_cases inner R f with ⟨-, he⟩ | ⟨run, hr, he⟩
  · exact he ▸ next follows_nil
  · exact he ▸ h run hr

theorem withState (hs : withState inner R f = some o)
    (h : ∀ run, inner.runs[R]? = some run → run.stateHeld = false →
      Attributed env inner op (f run)) : Attributed env inner op o := by
  rcases withState_cases hs with ⟨-, rfl⟩ | ⟨run, hr, hheld, rfl⟩
  · exact next follows_nil
  · exact h run hr hheld

end Attributed

/-! ## Handlers -/

theorem follows_giveUp (reason : String) (h : Origin env inner op (.finalize R verdict)) :
    ∀ op' ∈ giveUp R reason verdict, Origin env inner op op' :=
  forall_mem_cons.2 ⟨trivial, forall_mem_cons.2 ⟨trivial, follows_one h⟩⟩

theorem follows_lossPolicy (R reason : String) (policy : OnAgentLoss) :
    ∀ op' ∈ lossPolicy R reason policy, Origin env inner op op' := by
  cases policy with
  | keepGoing => exact follows_one trivial
  | abort => exact follows_giveUp reason (.inl rfl)

theorem follows_registerAgent (reg : Register) (session : ℕ) :
    ∀ op' ∈ (registerAgent env inner reg session).ops,
      Origin env inner (.registerAgent reg session) op' := by
  unfold registerAgent registrationOps
  dsimp only
  cases hr : (inner.agents.register reg session env.now).1 with
  | mk superseded restarted followup =>
    simp only [forall_mem_append]
    refine ⟨⟨⟨?_, ?_⟩, ?_⟩, follows_one (.inl ⟨reg, rfl, rfl⟩)⟩
    · cases superseded with
      | none => exact follows_nil
      | some previous => exact follows_one trivial
    · cases followup with
      | none => exact follows_nil
      | terminateParticipation R | maybeReplayAssignment R =>
        exact follows_one ⟨reg, session, rfl, rfl, by rw [hr]⟩
    · refine forall_mem_unless fun hc =>
        ⟨reg, session, rfl, rfl, rfl, ?_, ?_⟩
      · rintro he
        simp [he] at hc
      · rw [hr]
        simpa using (not_or.1 (by simpa using hc : ¬(_ ∨ restarted = true))).2

theorem follows_runEvent (rc : Received) (ev : RunEvent) :
    ∀ op' ∈ runEventOps rc.agentId ev,
      Origin env inner (.applyAgentMessage rc (.event ev)) op' := by
  have hdone : ev.kind.isTerminal = true → ∀ op' ∈ ([.zeroLiveGauges rc.agentId ev.runId,
      .markDone rc.agentId ev.runId ev.kind, .checkState ev.runId] : List (Op M)),
      Origin env inner (.applyAgentMessage rc (.event ev)) op' := fun hk =>
    forall_mem_cons.2 ⟨.inl ⟨rc, ev, rfl, rfl, rfl, hk⟩, forall_mem_cons.2
      ⟨⟨rc, ev, rfl, rfl, rfl, rfl, hk⟩, follows_one trivial⟩⟩
  unfold runEventOps
  split
  case h_1 hk => exact follows_one ⟨rc, ev, rfl, hk, rfl⟩
  case h_2 hk => exact follows_one ⟨rfl, rc, ev, rfl, hk, rfl⟩
  case h_3 hk => exact hdone (by rw [hk]; rfl)
  case h_4 hk | h_5 hk =>
    exact forall_mem_append.2
      ⟨forall_mem_unless fun _ => trivial, hdone (by rw [hk]; rfl)⟩
  case h_6 => exact follows_nil

theorem attributed_applyAgentMessage (rc : Received) (msg : AgentMsg M.Bytes) :
    Attributed env inner (.applyAgentMessage rc msg) (applyAgentMessage inner rc msg) := by
  have happlying : ∀ e ∈ [Event.applying rc], Logs env inner (.applyAgentMessage rc msg) e :=
    forall_mem_singleton.2 ⟨msg, rfl⟩
  cases msg with
  | register => exact .quiet follows_nil happlying
  | heartbeat activeVus => exact .table rfl (.heartbeat rc activeVus) follows_nil happlying
  | metrics R json =>
    unfold applyAgentMessage
    dsimp only
    split
    · exact .quiet follows_nil (forall_mem_cons.2 ⟨.inl ⟨json, rfl⟩, happlying⟩)
    · rename_i run hr
      split
      · exact .quiet follows_nil (forall_mem_cons.2 ⟨.inl ⟨json, rfl⟩, happlying⟩)
      · refine .quiet (follows_one ⟨json, rfl, ?_⟩) happlying
        rw [Std.ExtTreeMap.mem_iff_isSome_getElem?, hr]
        rfl
  | event ev =>
    exact .quiet (forall_mem_ite (fun _ => follows_runEvent rc ev) fun _ => follows_nil) happlying
  | controlAck ack =>
    refine .change (fun _ _ => ?_) follows_nil happlying
    exact acknowledge_eq .. ▸ .acknowledge rc ack rfl
  | assignmentReady R i =>
    refine .quiet ?_ happlying
    split
    · exact follows_one trivial
    · rename_i run hr
      exact forall_mem_ite (fun hi => follows_one ⟨rc, rfl, rfl, run, hr, hi⟩)
        fun _ => follows_nil

theorem follows_afterStart {reason : String} (policy : OnAgentLoss) (after : AfterStart)
    (hnp : NotPending inner R) :
    ∀ op' ∈ afterStart R policy after,
      Origin env inner (.recordPrepFailure R reason verdict after) op' := by
  cases after with
  | nothing => exact follows_nil
  | restarted a => exact follows_one ⟨hnp, reason, verdict, rfl⟩
  | lost newly => exact follows_lossPolicy _ _ _
  | control call => exact follows_one (.inr ⟨R, reason, verdict, hnp, rfl⟩)

theorem attributed_barrierCheck (hr : inner.runs[R]? = some run) (hheld : run.stateHeld = false)
    (b : ℕ) : Attributed env inner (.barrierCheck R b) (barrierCheck inner R run b env.now) := by
  refine .ite (fun _ => .next follows_nil) fun ht => ?_
  have hlive := Bool.eq_false_iff.2 ht
  cases hfail : run.prep.failure with
  | some failure => exact .next (follows_giveUp _ (.inr ⟨b, run, failure.1, rfl, hr, hfail⟩))
  | none =>
    refine .ite (fun hready => ?_) fun _ => .next (follows_one rfl)
    have hmay : MayStart run := ⟨hheld, hlive, hfail, hready⟩
    exact .found hr (.commitStart b hheld hlive hfail hready)
      (follows_one ⟨b, run, rfl, hr, hmay, rfl⟩)
      (forall_mem_singleton.2 ⟨b, run, rfl, hr, hmay, rfl, rfl, rfl, rfl⟩)

theorem follows_controlTimeout (call : ControlCall) (n : ℕ) :
    ∀ op' ∈ controlVerdict call false, Origin env inner (.controlTimeout call n) op' := by
  unfold controlVerdict
  split
  case h_1 | h_2 => exact follows_one ⟨call, n, rfl, .inl ⟨rfl, rfl⟩⟩
  all_goals exact follows_nil

theorem follows_controlFinish {call : ControlCall} (n : ℕ)
    (hr : inner.runs[call.runId]? = some run) :
    ∀ op' ∈ controlVerdict call ((answers run n).all fun answer => answer.2.isOk),
      Origin env inner (.controlFinish call n) op' := by
  have hpause : ∀ b : Bool, call.action = pauseAction b → Origin env inner (.controlFinish call n)
      (.setPaused call.runId
        (if ((answers run n).all fun answer => answer.2.isOk) = true then some b else none)) := by
    refine fun b hb => ⟨call, n, rfl, .inr ⟨rfl, fun b' hb' => ?_⟩⟩
    split at hb'
    · rename_i hok
      cases hb'
      exact ⟨hb, run, hr, all_eq_true.1 hok⟩
    · cases hb'
  unfold controlVerdict
  split
  case h_1 ha => exact follows_one (hpause true ha)
  case h_2 ha => exact follows_one (hpause false ha)
  case h_3 | h_4 =>
    exact forall_mem_ite (fun _ => follows_one ⟨call, n, rfl, rfl⟩) fun _ => follows_nil
  case h_5 => exact follows_nil

theorem follows_controlInsert (call : ControlCall) (targets : List (String × ℕ)) :
    ∀ op' ∈ controlOps call (inner.controlCounter + 1) targets ++
        [.controlWait call (inner.controlCounter + 1)],
      Origin env inner (.controlInsert call targets) op' := by
  refine forall_mem_append.2 ⟨?_, follows_one (.inl ⟨targets, rfl⟩)⟩
  intro op' hop
  obtain ⟨i, hi, rfl⟩ := mem_mapIdx.1 hop
  exact ⟨call, targets, rfl, getElem_mem hi, rfl, rfl, rfl⟩

theorem follows_newlyLost (R : String) (newly : List String) :
    ∀ op' ∈ newlyLostOps R newly, Origin env inner (.sweepFilter R [] newly) op' := by
  refine forall_mem_ite (fun _ => follows_nil) fun _ =>
    forall_mem_append.2 ⟨?_, follows_one ⟨rfl, rfl⟩⟩
  intro op' hop
  obtain ⟨id, hid, hop⟩ := mem_flatMap.1 hop
  simp only [mem_cons, not_mem_nil, or_false] at hop
  rcases hop with rfl | rfl | rfl
  · exact ⟨newly, rfl, hid⟩
  · exact ⟨newly, rfl, hid⟩
  · exact .inr (.inl ⟨newly, rfl, hid⟩)

theorem mem_iterated {order keys : List String} {id : String} (h : id ∈ iterated order keys) :
    id ∈ keys := by
  unfold iterated at h
  split_ifs at h with hp
  · exact (isPerm_iff.1 hp).mem_iff.1 h
  · exact h

theorem isTerminal_of_completion (h : run.completion = some verdict) :
    verdict.isTerminal = true := by
  unfold ControllerRun.completion at h
  split_ifs at h <;> exact some.inj h ▸ rfl

theorem offerAck_cases (inner : Inner M) (room : Bool) (s : ℕ) (ack : Option ℕ) :
    offerAck inner room s ack = { shared := inner } ∨
      ∃ seq, offerAck inner room s ack =
        { shared := inner.enqueue s (.msg (.uplinkAck seq))
          events := [.sent s (.msg (.uplinkAck seq))] } := by
  cases ack with
  | none => exact .inl rfl
  | some seq =>
    unfold offerAck deliver
    split_ifs
    · exact .inr ⟨seq, rfl⟩
    · exact .inl rfl

theorem admitMessage_cases (env : Env M) (inner : Inner M) (a : String) (s : ℕ)
    (msg : AgentMessage (AgentMsg M.Bytes)) :
    ∃ ack ops events, Pumped inner a s msg ops events ∧ admitMessage env inner a s msg =
      let acked := offerAck
        { inner with agents := (inner.agents.admitMessage a s msg.seq env.now).2 } env.room s ack
      { acked with ops := ops, events := acked.events ++ events } := by
  unfold admitMessage
  dsimp only
  split
  · rename_i hv
    refine ⟨_, _, _, ?_, rfl⟩
    cases hf : inner.agents.fence a with
    | none =>
      rw [Agents.admitMessage_stale (by simp [hf])] at hv
      cases hv
    | some f =>
      by_cases hs : f.session = s
      · subst hs
        refine .apply f hf rfl ?_ ?_
        · obtain ⟨e, he, rfl⟩ := map_eq_some_iff.1 hf
          simp [received, he]
        · rw [(Agents.admitMessage_live hf _ _).verdict_eq] at hv
          by_contra hfresh
          rw [if_neg hfresh] at hv
          cases hv
      · rw [Agents.admitMessage_stale
          (by rintro g hg rfl; exact hs (by rw [hf] at hg; cases hg; rfl))]
          at hv
        cases hv
  · exact ⟨_, _, [], .duplicate, by rw [append_nil]⟩
  · exact ⟨_, _, [], .stale, by rw [append_nil]⟩

theorem pumped (env : Env M) (inner : Inner M) (a : String) (s : ℕ)
    (msg : AgentMessage (AgentMsg M.Bytes)) :
    ∃ acks events, (admitMessage env inner a s msg).events = acks ++ events ∧
      (∀ e ∈ acks, ∃ n, e = .sent s (.msg (.uplinkAck n))) ∧
      Pumped inner a s msg (admitMessage env inner a s msg).ops events := by
  obtain ⟨ack, ops, events, hp, he⟩ := admitMessage_cases env inner a s msg
  rw [he]
  refine ⟨_, events, rfl, ?_, hp⟩
  rcases offerAck_cases _ env.room s ack with he | ⟨seq, he⟩
  · exact he ▸ forall_mem_nil _
  · exact he ▸ forall_mem_singleton.2 ⟨seq, rfl⟩

theorem agents_admitMessage (env : Env M) (inner : Inner M) (agentId : String) (session : ℕ)
    (msg : AgentMessage (AgentMsg M.Bytes)) :
    (admitMessage env inner agentId session msg).shared.agents =
      (inner.agents.admitMessage agentId session msg.seq env.now).2 := by
  obtain ⟨ack, ops, events, -, he⟩ := admitMessage_cases env inner agentId session msg
  rw [he]
  rcases offerAck_cases _ env.room session ack with he | ⟨seq, he⟩ <;> exact he ▸ rfl

theorem attributed_admitMessage (a : String) (s : ℕ) (msg : AgentMessage (AgentMsg M.Bytes)) :
    Attributed env inner (.admitMessage a s msg) (admitMessage env inner a s msg) := by
  obtain ⟨ack, ops, events, hp, he⟩ := admitMessage_cases env inner a s msg
  have hops : ∀ op' ∈ ops, Origin env inner (.admitMessage a s msg) op' := by
    cases hp with
    | apply f _ _ _ _ =>
      exact forall_mem_cons.2 ⟨⟨msg, rfl, rfl, rfl⟩, forall_mem_cons.2
        ⟨⟨msg, rfl⟩, follows_one (.inr ⟨msg, rfl⟩)⟩⟩
    | duplicate => exact follows_one (.inr ⟨msg, rfl⟩)
    | stale => exact follows_one (.inr ⟨msg, rfl⟩)
  have hevents : ∀ e ∈ events, Logs env inner (.admitMessage a s msg) e := by
    cases hp with
    | apply f _ _ _ _ => exact forall_mem_singleton.2 ⟨msg, rfl⟩
    | duplicate | stale => exact forall_mem_nil _
  rw [he]
  rcases offerAck_cases
    { inner with agents := (inner.agents.admitMessage a s msg.seq env.now).2 } env.room s ack
    with he | ⟨seq, he⟩
  · rw [he]
    exact .table rfl (.admitMessage a s msg) hops hevents
  · rw [he]
    exact .table rfl (.acknowledge a s msg seq) hops
      (forall_mem_cons.2 ⟨.inr (.inr ⟨seq, rfl⟩), hevents⟩)

theorem attributed_insertRun (sub : Submission M) (selected : List (String × ℕ))
    (h : exec env inner (.insertRun sub selected) = some o) :
    Attributed env inner (.insertRun sub selected) o := by
  cases h
  refine ⟨fun runId => ?_, .runs _ _, ?_, forall_mem_nil _, .inl rfl⟩
  · by_cases hR : sub.runId = runId
    · subst hR
      exact .inr (.inr ⟨sub, selected, rfl, rfl, by simp⟩)
    · exact .inl (by simp [Std.ExtTreeMap.getElem?_insert, hR])
  · refine forall_mem_append.2
      ⟨fun op' hop => ?_, follows_one ⟨sub, selected, rfl, rfl⟩⟩
    obtain ⟨target, ht, hop⟩ := mem_filterMap.1 hop
    obtain ⟨a, ha, rfl⟩ := map_eq_some_iff.1 hop
    obtain ⟨i, -, rfl⟩ := map_eq_some_iff.1 ha
    exact .inr ⟨sub, selected, rfl, rfl, target, ht, rfl⟩

/-! ## The account of an operation -/

section

variable (h : exec env inner op = some o)
include h

theorem exec_attributed : Attributed env inner op o := by
  cases op
  case registerAgent reg s =>
    exact .of_some h (.table rfl (.registerAgent reg s) (follows_registerAgent reg s)
      (forall_mem_singleton.2 ⟨reg, rfl, rfl, rfl, rfl⟩))
  case terminateParticipation => exact .of_some h (.next (follows_one ⟨rfl, rfl⟩))
  case restartedState | replayAssignment =>
    exact .withState h fun _ _ _ => .next (forall_mem_unless fun _ => rfl)
  case restartedDone =>
    exact .of_some h (.withRun fun run hr => .next (forall_mem_unless fun hd =>
      ⟨rfl, run, hr, Bool.eq_false_iff.2 hd⟩))
  case restartedLost a R =>
    exact .of_some h (.withRun fun _ _ =>
      .update (fun _ _ => .restartedLost a) (follows_lossPolicy _ _ _))
  case replayDone =>
    exact .of_some h (.withRun fun _ _ => .next (forall_mem_unless fun _ => rfl))
  case replayLost =>
    exact .of_some h (.withRun fun _ _ => .next (forall_mem_unless fun _ => .inl rfl))
  case resumeRun a R =>
    simp only [exec] at h
    split at h
    · exact .of_some h (.next (follows_one trivial))
    · rename_i run hr
      split_ifs at h with ha hs ht
      · exact .of_some h (.quiet (follows_one trivial)
          (forall_mem_singleton.2 ⟨rfl, run, hr, ht⟩))
      · exact .of_some h (.next (follows_one ⟨rfl, run, hr, ha, Bool.eq_false_iff.2 ht⟩))
      · exact .of_some h (.next follows_nil)
  case resumeDone =>
    exact .of_some h (.withRun fun run hr => .next (forall_mem_ite
      (fun _ => follows_one trivial)
      fun hd => follows_one ⟨rfl, run, hr, Bool.eq_false_iff.2 hd⟩))
  case resumeLost a R =>
    exact .of_some h (.update (fun _ _ => .resumeLost a) (follows_one rfl))
  case resumePhase a R =>
    refine .of_some h (.withRun fun run _ => .next ?_)
    split
    · exact follows_one (.inr rfl)
    · exact follows_one rfl
    · exact follows_nil
  case resumeStart a R =>
    refine .of_some h (.withRun fun run hr => .next ?_)
    split
    · exact follows_one ⟨rfl, run, hr, ‹_›⟩
    · exact follows_nil
  case resumeSender a R t =>
    refine .of_some h (.next ?_)
    split
    · exact follows_one (.inl ⟨a, rfl⟩)
    · exact follows_nil
  case sendAssignment a R =>
    refine .of_some h (.withRun fun run hr => .next ?_)
    split
    · rename_i x k hx hk
      obtain ⟨i, hi, rfl⟩ := map_eq_some_iff.1 hx
      obtain ⟨hlt, hp, -⟩ := findIdx?_eq_some_iff_getElem.1 hi
      refine follows_one (.inl ⟨a, run, rfl, hk, hr, ?_⟩)
      exact beq_iff_eq.1 hp ▸ getElem_mem hlt
    · exact follows_nil
  case killAgentRun =>
    refine .of_some h (.next ?_)
    split
    · exact follows_one rfl
    · exact follows_nil
  case send s item =>
    exact .of_some h (.ite (fun hroom => .table rfl (.send s item hroom) follows_nil
      (forall_mem_singleton.2 (.inl rfl))) fun _ => .next follows_nil)
  case pump a s =>
    refine .of_some h (.next ?_)
    split
    · rename_i msg hmsg
      exact follows_one ⟨rfl, hmsg⟩
    · exact follows_one (.inl rfl)
  case admitMessage a s msg => exact .of_some h (attributed_admitMessage a s msg)
  case applyAgentMessage rc msg => exact .of_some h (attributed_applyAgentMessage rc msg)
  case applied => exact .of_some h (.quiet follows_nil (forall_mem_singleton.2 rfl))
  case markDisconnected a s =>
    exact .of_some h (.table rfl (.markDisconnected a s) follows_nil (forall_mem_nil _))
  case controlRun call =>
    exact .of_some h (.next (forall_mem_ite (fun _ => follows_nil) fun _ => forall_mem_ite
      (fun _ => follows_one ⟨rfl, rfl, rfl⟩) fun _ => follows_one rfl))
  case controlState call =>
    exact .withState h fun run hr _ => .next (forall_mem_unless fun hp =>
      .inl ⟨⟨run, hr, hp⟩, rfl⟩)
  case controlTargets call =>
    exact .of_some h (.withRun fun run hr => .next (forall_mem_ite (fun _ => follows_nil)
      fun _ => forall_mem_unless fun _ => ⟨rfl, run, hr, rfl⟩))
  case controlInsert call targets =>
    exact .of_some h ⟨Attributed.runStep_modifyRun rfl fun _ _ => .controlInsert call targets _ rfl,
      .controlInsert call targets _, follows_controlInsert call targets, forall_mem_nil _,
      .inl rfl⟩
  case controlSend a s c =>
    simp only [exec] at h
    split_ifs at h
    · exact .of_some h (.table rfl (.controlSend a s c) follows_nil
        (forall_mem_singleton.2 (.inr (.inl ⟨c, rfl⟩))))
    · exact .of_some h (.update (fun _ _ => .controlSend a s c rfl) follows_nil)
  case controlWait =>
    exact .of_some h (.withRun fun run hr => .next (forall_mem_ite
      (fun hc => follows_one ⟨rfl, run, hr, hc⟩) fun _ => follows_one rfl))
  case controlPark call n =>
    simp only [exec] at h
    split at h
    · cases h
    · split_ifs at h
      · exact .of_some h (.update (fun _ _ => .controlPark call n) (follows_one (.inr rfl)))
      · exact .of_some h (.next (follows_one rfl))
  case controlTimeout call n =>
    refine .of_some h (.withRun fun _ _ => .change (fun _ _ => .controlTimeout call n rfl)
      (follows_controlTimeout call n) fun e he => ?_)
    obtain ⟨pending, -, rfl⟩ := map_eq_some_iff.1 (mem_toList.1 he)
    exact nofun
  case controlFinish call n =>
    refine .of_some h (.withRun fun run hr => .change (fun _ _ => .controlFinish call n rfl)
      (follows_controlFinish n hr) fun e he => ?_)
    obtain ⟨pending, hp, rfl⟩ := map_eq_some_iff.1 (mem_toList.1 he)
    exact fun hok => ⟨call, run, pending, rfl, hr, hp, rfl, all_eq_true.1 hok⟩
  case setPaused R paused => exact .of_some h (.update (fun _ _ => .setPaused paused) follows_nil)
  case setStopping R =>
    refine .withState h fun run hr hheld => ?_
    split_ifs with ht
    · exact .next follows_nil
    · exact .found hr (.setStopping hheld (Bool.eq_false_iff.2 ht)) follows_nil
        (forall_mem_nil _)
  case deltaName rc R delta =>
    exact .of_some h (.next (follows_one ⟨delta, _, rfl, rfl⟩))
  case deltaState rc R delta =>
    exact .withState h fun run hr hheld => .ite
      (fun _ => .quiet follows_nil (forall_mem_singleton.2 (.inr ⟨rfl, delta, rfl⟩)))
      fun ht => .found hr (.deltaState rc delta hheld (Bool.eq_false_iff.2 ht))
        (follows_one rfl) (forall_mem_nil _)
  case deltaContributing rc R delta =>
    exact .of_some h (.update (fun _ _ => .deltaContributing rc delta) (follows_one rfl))
  case deltaMerge rc R delta =>
    exact .of_some h (.change (fun _ _ => .deltaMerge rc delta) (follows_one ⟨delta, rfl⟩)
      (forall_mem_singleton.2 ⟨delta, rfl⟩))
  case deltaLost =>
    exact .of_some h (.withRun fun run hr => .next (follows_one ⟨rfl, run, hr, rfl⟩))
  case deltaDone rc R lost =>
    exact .of_some h (.withRun fun _ _ => .next (forall_mem_append.2
      ⟨forall_mem_ite (fun _ => follows_one (.inr (.inr ⟨rc, lost, rfl, rfl⟩)))
        fun _ => follows_nil, follows_one ⟨rc, lost, rfl⟩⟩))
  case deltaRelease => exact .of_some h (.update (fun _ _ => .deltaRelease) follows_nil)
  case markReady a R i =>
    exact .withState h fun run hr hheld => .ite (fun _ => .next (follows_one trivial))
      fun ht => .found hr (.markReady a i hheld (Bool.eq_false_iff.2 ht))
        (follows_one trivial) (forall_mem_singleton.2 rfl)
  case eventStarted R =>
    refine .withState h fun run hr hheld => ?_
    split_ifs with hp
    · exact .found hr (.eventStarted hheld hp) follows_nil (forall_mem_nil _)
    · exact .next follows_nil
  case recordPrepFailure R reason verdict after =>
    exact .withState h fun run hr hheld => .ite
      (fun hp => .found hr
        (recordPrepFailure_eq .. ▸ .recordPrepFailure reason verdict after hheld hp)
        (follows_one trivial)
        (forall_mem_singleton.2 ⟨reason, verdict, after, run, rfl, hr, hp⟩))
      fun hp => .next (follows_afterStart _ _ ⟨run, hr, hp⟩)
  case notifyPrep => exact .of_some h (.update (fun _ _ => .notifyPrep) follows_nil)
  case noteAbort R reason =>
    exact .of_some h (.update (fun _ _ => noteAbort_eq .. ▸ .noteAbort reason) follows_nil)
  case zeroLiveGauges a R => exact .of_some h (.update (fun _ _ => .zeroLiveGauges a) follows_nil)
  case markDone a R kind => exact .of_some h (.update (fun _ _ => .markDone a kind) follows_nil)
  case checkState | tickState =>
    exact .withState h fun _ _ _ => .next (forall_mem_unless fun _ => trivial)
  case checkScan =>
    refine .of_some h (.withRun fun run _ => .next ?_)
    split
    · exact follows_one (.inl (isTerminal_of_completion ‹_›))
    · exact follows_nil
  case finalize R verdict =>
    exact .withState h fun run hr hheld => .ite (fun _ => .next follows_nil)
      fun ht => .found hr (.finalize verdict hheld (Bool.eq_false_iff.2 ht))
        (forall_mem_cons.2 ⟨⟨verdict, rfl⟩, follows_one trivial⟩)
        (forall_mem_singleton.2 rfl)
  case releaseReservations R =>
    exact .of_some h (.withRun fun run _ => .table rfl (.releaseReservations R run.assigned)
      follows_nil (forall_mem_nil _))
  case stopRun =>
    exact .of_some h (.withRun fun _ _ => .next
      (forall_mem_map.2 fun _ _ => rfl))
  case sweep =>
    exact .of_some h (.next (forall_mem_append.2 ⟨forall_mem_ite (fun _ => follows_nil)
      fun _ => follows_one ⟨rfl, fun _ hid => mem_iterated hid⟩, follows_one rfl⟩))
  case sweepRuns => exact .of_some h (.next (forall_mem_map.2 fun _ _ => rfl))
  case sweepRun =>
    exact .withState h fun _ _ _ => .next
      (forall_mem_unless fun _ => .inl ⟨rfl, rfl⟩)
  case sweepFilter R lostIds newly =>
    cases lostIds with
    | nil => exact .of_some h (.next (follows_newlyLost R newly))
    | cons id lostIds =>
      refine .of_some h (.withRun fun run _ => .next (follows_one
        (.inr ⟨id, newly, rfl, fun id' hid' => ?_⟩)))
      split_ifs at hid'
      · exact (mem_append.1 hid').symm.imp_left mem_singleton.1
      · exact .inr hid'
  case sweepLost a R => exact .of_some h (.update (fun _ _ => .sweepLost a) follows_nil)
  case sweepLostEver a R => exact .of_some h (.update (fun _ _ => .sweepLostEver a) follows_nil)
  case reserveAgents sub =>
    simp only [exec] at h
    split at h
    · exact .of_some h (.next follows_nil)
    · rename_i selected agents hsel
      exact .of_some h (.table rfl (.reserveAgents sub selected agents hsel)
        (follows_one ⟨rfl, agents, hsel⟩) (forall_mem_nil _))
  case insertRun sub selected => exact attributed_insertRun sub selected h
  case spawnBarrier R b =>
    exact .of_some h (.spawn (.inr (.inl ⟨R, b, rfl, rfl⟩))
      (forall_mem_singleton.2 ⟨b, rfl⟩))
  case barrierCheck R b => exact .withState h fun run hr hheld => attributed_barrierCheck hr hheld b
  case barrierPark R b =>
    simp only [exec] at h
    split at h
    · cases h
    · rename_i run hr
      split_ifs at h with hn
      · exact .of_some h (.found hr (.unpark b hn) (follows_one rfl)
          (forall_mem_nil _))
      · exact .of_some h (.quiet (follows_one ⟨b, rfl⟩)
          (forall_mem_singleton.2 ⟨b, rfl⟩))
  case barrierTimeout => exact .of_some h (.withRun fun _ _ => .next (follows_giveUp _ (.inl rfl)))
  case broadcastStart R t =>
    exact .of_some h (.withRun fun _ _ => .next (forall_mem_append.2
      ⟨forall_mem_map.2 fun _ _ => .inr rfl, follows_one ⟨t, rfl⟩⟩))
  case broadcastDone R =>
    exact .of_some h (.spawn (.inr (.inr ⟨R, rfl, rfl⟩)) (forall_mem_singleton.2 rfl))
  case tick =>
    exact .of_some h (.next (forall_mem_cons.2 ⟨trivial, follows_one trivial⟩))
  case publishLiveSnapshot R =>
    refine .withState h fun run hr hheld => ?_
    split_ifs with ht
    · exact .next follows_nil
    · exact .found hr (.publishLiveSnapshot hheld (Bool.eq_false_iff.2 ht)) follows_nil
        (forall_mem_nil _)

theorem exec_runs (runId : String) :
    RunStep env op runId inner.runs[runId]? o.shared.runs[runId]? :=
  (exec_attributed h).runs runId

theorem exec_run (hr' : o.shared.runs[runId]? = some run') :
    inner.runs[runId]? = some run' ∨
      (∃ run, inner.runs[runId]? = some run ∧ RunEffect env runId run op run') ∨
      ∃ sub selected, op = .insertRun sub selected ∧ sub.runId = runId ∧
        run' = .submitted sub (selected.map (·.1)) env.now := by
  rcases exec_runs h runId with he | ⟨run, run₁, hr, he, heff⟩ | ⟨sub, selected, hop, hR, he⟩
  · exact .inl (he.symm.trans hr')
  · cases he.symm.trans hr'
    exact .inr (.inl ⟨run, hr, heff⟩)
  · exact .inr (.inr ⟨sub, selected, hop, hR, some.inj (hr'.symm.trans he)⟩)

theorem exec_new_run (hn : inner.runs[runId]? = none)
    (hr' : o.shared.runs[runId]? = some run') : ∃ sub selected,
    op = .insertRun sub selected ∧ run' = .submitted sub (selected.map (·.1)) env.now := by
  rcases exec_run h hr' with he | ⟨run, hr, -⟩ | ⟨sub, selected, hop, -, he⟩
  · cases hn.symm.trans he
  · cases hn.symm.trans hr
  · exact ⟨sub, selected, hop, he⟩

theorem exec_ops : ∀ op' ∈ o.ops, Origin env inner op op' := (exec_attributed h).ops

theorem exec_shared : TableEffect env inner op o.shared := (exec_attributed h).shared

theorem exec_events : ∀ e ∈ o.events, Logs env inner op e := (exec_attributed h).events

theorem exec_spawned : Spawns op o.spawned := (exec_attributed h).spawned

end

/-! ## Entries of the registry -/

def registeredEntry (env : Env M) (inner : Inner M) (reg : Register) (k : ℕ) : AgentEntry :=
  let prev := inner.agents[reg.agentId]?
  { name := reg.agentName
    labels := reg.labels
    incarnation := reg.incarnation
    lastHeartbeat := env.now
    activeVus := 0
    connected := true
    session := k
    lastSeq := ((prev.filter fun p => p.incarnation == reg.incarnation).map (·.lastSeq)).getD 0
    activeRun := (Agents.carryReservation prev reg
      (prev.any fun p => p.incarnation != reg.incarnation)).1 }

/-- How an operation can change the entry of agent `id`. -/
inductive EntryEffect (env : Env M) (inner : Inner M) (id : String) (e : AgentEntry) :
    Op M → AgentEntry → Prop
  | same (op : Op M) : EntryEffect env inner id e op e
  | registered (reg : Register) (k : ℕ) : reg.agentId = id →
    EntryEffect env inner id e (.registerAgent reg k) (registeredEntry env inner reg k)
  | heartbeat (rc : Received) (n : ℕ) : rc.agentId = id →
    EntryEffect env inner id e (.applyAgentMessage rc (.heartbeat n)) { e with activeVus := n }
  | disconnected : EntryEffect env inner id e (.markDisconnected id e.session)
      { e with connected := false }
  | released (R : String) : e.activeRun = some R →
    EntryEffect env inner id e (.releaseReservations R) { e with activeRun := none }
  | reserved (sub : Submission M) : e.activeRun = none →
    EntryEffect env inner id e (.reserveAgents sub) { e with activeRun := some sub.runId }
  | admitted (msg : AgentMessage (AgentMsg M.Bytes)) :
    EntryEffect env inner id e (.admitMessage id e.session msg)
      { e with lastHeartbeat := env.now, lastSeq := max e.lastSeq msg.seq }

theorem exec_entries (h : exec env inner op = some o) (id : String) :
    (∀ e, inner.agents[id]? = some e →
      ∃ e', o.shared.agents[id]? = some e' ∧ EntryEffect env inner id e op e') ∧
    ∀ e', inner.agents[id]? = none → o.shared.agents[id]? = some e' →
      ∃ reg k, op = .registerAgent reg k ∧ reg.agentId = id ∧
        e' = registeredEntry env inner reg k := by
  have hs := exec_shared h
  generalize o.shared = inner' at hs
  have hmap {f : AgentEntry → AgentEntry} (hl : inner'.agents[id]? = inner.agents[id]?.map f)
      (hf : ∀ e, EntryEffect env inner id e op (f e)) :
      (∀ e, inner.agents[id]? = some e →
        ∃ e', inner'.agents[id]? = some e' ∧ EntryEffect env inner id e op e') ∧
      ∀ e', inner.agents[id]? = none → inner'.agents[id]? = some e' →
        ∃ reg k, op = .registerAgent reg k ∧ reg.agentId = id ∧
          e' = registeredEntry env inner reg k := by
    rw [hl]
    exact ⟨fun e he => ⟨f e, by rw [he, map_some], hf e⟩, fun e' he he' => by simp [he] at he'⟩
  cases hs with
  | runs | controlInsert | send | controlSend => exact hmap map_id'.symm fun _ => .same _
  | registerAgent reg k =>
    by_cases hid : reg.agentId = id
    · subst hid
      have hnew : (inner.agents.register reg k env.now).2[reg.agentId]? =
        some (registeredEntry env inner reg k) := Std.ExtTreeMap.getElem?_insert_self
      exact ⟨fun e _ => ⟨_, hnew, .registered reg k rfl⟩,
        fun e' _ he' => ⟨reg, k, rfl, rfl, some.inj (he'.symm.trans hnew)⟩⟩
    · refine hmap (f := fun e => e) ?_ fun _ => .same _
      simp [Agents.register, Std.ExtTreeMap.getElem?_insert, hid]
  | heartbeat rc n =>
    refine hmap (Agents.getElem?_setActiveVus ..) fun e => ?_
    split_ifs with hid
    · exact .heartbeat rc n hid.symm
    · exact .same _
  | markDisconnected a k =>
    refine hmap (Agents.getElem?_markDisconnected ..) fun e => ?_
    split_ifs with hid
    · obtain ⟨rfl, rfl⟩ := hid
      exact .disconnected
    · exact .same _
  | releaseReservations R assigned =>
    refine hmap (Agents.getElem?_releaseReservations ..) fun e => ?_
    split_ifs with hid
    · exact .released R hid.2
    · exact .same _
  | reserveAgents sub selected agents hsel =>
    rcases Agents.getElem?_reserveAgents hsel id with ⟨hsame, -⟩ | ⟨e₀, he₀, hfree, -, -, he'⟩
    · exact hmap (hsame.trans map_id'.symm) fun _ => .same _
    · refine ⟨fun e he => ?_, fun e' he => nomatch he₀.symm.trans he⟩
      cases he₀.symm.trans he
      exact ⟨_, he', .reserved sub hfree⟩
  | admitMessage a k msg | acknowledge a k msg seq =>
    refine hmap (Agents.getElem?_admitMessage ..) fun e => ?_
    split_ifs with hid
    · obtain ⟨rfl, rfl⟩ := hid
      exact .admitted msg
    · exact .same _

theorem exec_entry (h : exec env inner op = some o) {id : String} {e : AgentEntry}
    (he : inner.agents[id]? = some e) :
    ∃ e', o.shared.agents[id]? = some e' ∧ EntryEffect env inner id e op e' :=
  (exec_entries h id).1 e he

theorem exec_entry_new (h : exec env inner op = some o) {id : String} {e' : AgentEntry}
    (he : inner.agents[id]? = none) (he' : o.shared.agents[id]? = some e') :
    ∃ reg k, op = .registerAgent reg k ∧ reg.agentId = id ∧
      e' = registeredEntry env inner reg k :=
  (exec_entries h id).2 e' he he'

/-! ## Downlinks -/

theorem exec_counters (h : exec env inner op = some o) :
    o.shared.sessionCounter = inner.sessionCounter ∧ o.shared.runIds = inner.runIds := by
  have hs := exec_shared h
  generalize o.shared = inner' at hs
  cases hs <;> exact ⟨rfl, rfl⟩

theorem mem_enqueue {s s' : ℕ} {item' : DownItem} :
    item' ∈ (inner.enqueue s item).downlinks s' ↔
      item' ∈ inner.downlinks s' ∨ s' = s ∧ item' = item := by
  unfold Inner.enqueue
  dsimp only
  by_cases hs : s' = s
  · subst hs
    simp
  · simp [hs]

section

variable (h : exec env inner op = some o)
include h

theorem exec_downlinks {s : ℕ} (hi : item ∈ inner.downlinks s) : item ∈ o.shared.downlinks s := by
  have hs := exec_shared h
  generalize o.shared = inner' at hs
  cases hs
  case send | controlSend => exact mem_enqueue.2 (.inl hi)
  case acknowledge => exact mem_enqueue.2 (.inl hi)
  all_goals exact hi

theorem exec_queued {s : ℕ} (hi : item ∈ o.shared.downlinks s) :
    item ∈ inner.downlinks s ∨
      (op = .send s item ∧ .sent s item ∈ o.events) ∨
      (∃ a c, op = .controlSend a s c ∧ item = .msg (.control c)) ∨
      ∃ n, item = .msg (.uplinkAck n) := by
  have hs := exec_shared h
  generalize o.shared = inner' at hs hi
  cases hs
  case send k item' hroom =>
    rcases mem_enqueue.1 hi with hi | ⟨rfl, rfl⟩
    · exact .inl hi
    · cases h
      rw [deliver, if_pos hroom]
      exact .inr (.inl ⟨rfl, mem_singleton_self _⟩)
  case controlSend a k c =>
    rcases mem_enqueue.1 hi with hi | ⟨rfl, rfl⟩
    · exact .inl hi
    · exact .inr (.inr (.inl ⟨a, c, rfl, rfl⟩))
  case acknowledge a k msg seq =>
    rcases mem_enqueue.1 hi with hi | ⟨rfl, rfl⟩
    · exact .inl hi
    · exact .inr (.inr (.inr ⟨_, rfl⟩))
  all_goals exact .inl hi

theorem exec_start_queued {s : ℕ} {t : ℤ}
    (hi : .msg (.start R t) ∈ o.shared.downlinks s) :
    .msg (.start R t) ∈ inner.downlinks s ∨ .sent s (.msg (.start R t)) ∈ o.events := by
  rcases exec_queued h hi with hi | ⟨-, hsent⟩ | ⟨a, c, -, he⟩ | ⟨n, he⟩
  · exact .inl hi
  · exact .inr hsent
  · cases he
  · cases he

theorem exec_mem_runs (hR : R ∈ inner.runs) : R ∈ o.shared.runs := by
  rw [Std.ExtTreeMap.mem_iff_isSome_getElem?] at hR ⊢
  rcases exec_runs h R with he | ⟨run, run', -, he, -⟩ | ⟨sub, selected, -, -, he⟩
  · rw [he]
    exact hR
  · rw [he]
    rfl
  · rw [he]
    rfl

end

/-! ## Steps of the machine -/

def connected (s : State M) (reg : Register) : State M :=
  start s (Inner.enqueue { s.shared with sessionCounter := s.shared.sessionCounter + 1 }
      (s.shared.sessionCounter + 1) (.msg .registered))
    (.session (s.shared.sessionCounter + 1)) [.registerAgent reg (s.shared.sessionCounter + 1)]

def submitted (s : State M) (sub : Submission M) : State M :=
  start s { s.shared with runIds := sub.runId :: s.shared.runIds } (.submit sub.runId)
    [.reserveAgents sub]

inductive Step (s : State M) : Action M → State M → Prop
  | exec {t : TaskId} {env : Env M} {op : Op M} {rest : List (Op M)} {o : Outcome M} :
    s.tasks t = op :: rest → exec env s.shared op = some o →
    Step s (.step t env) (s.commit t rest o)
  | connect (reg : Register) : Step s (.connect reg) (connected s reg)
  | submit (sub : Submission M) : sub.runId ∉ s.shared.runIds → sub.runId ≠ "" →
    Step s (.submit sub) (submitted s sub)
  | control (n : ℕ) (call : ControlCall) : s.tasks (.control n) = [] →
    Step s (.control n call) (start s s.shared (.control n) [.controlRun call])

theorem step_of_next {s' : State M} {a : Action M} (h : next s a = some s') : Step s a s' := by
  cases a with
  | step t env =>
    obtain ⟨op, rest, o, ht, hexec, rfl⟩ := Tasks.State.step_eq_some.1 h
    exact .exec ht hexec
  | connect reg =>
    simp only [next, ite_none_right_eq_some, some.injEq] at h
    exact h.2 ▸ .connect reg
  | submit sub =>
    simp only [next, ite_none_right_eq_some, some.injEq] at h
    exact h.2 ▸ .submit sub h.1.1 h.1.2
  | control n call =>
    simp only [next, ite_none_right_eq_some, some.injEq] at h
    exact h.2 ▸ .control n call (isEmpty_iff.1 h.1)

theorem commit_tasks (hexec : exec env s.shared op = some o) (t' : TaskId) :
    (∃ R b, t' = .barrier R ∧ op = .spawnBarrier R b ∧
      (s.commit t rest o).tasks t' = [.barrierCheck R b]) ∨
    (∃ R, t' = .ticker R ∧ op = .broadcastDone R ∧ (s.commit t rest o).tasks t' = [.tick R]) ∨
    (∀ R b, t' = .barrier R → op ≠ .spawnBarrier R b) ∧
      (s.commit t rest o).tasks t' = if t' = t then o.ops ++ rest else s.tasks t' := by
  have hupd : Function.update s.tasks t (o.ops ++ rest) t' =
      if t' = t then o.ops ++ rest else s.tasks t' := update_apply _ _ _ _
  have hcommit : (s.commit t rest o).tasks t' =
      Tasks.spawn (Function.update s.tasks t (o.ops ++ rest)) o.spawned t' := rfl
  rw [hcommit, ← hupd]
  by_cases hsp : ∃ R b, t' = .barrier R ∧ op = .spawnBarrier R b
  · obtain ⟨R, b, rfl, rfl⟩ := hsp
    cases hexec
    exact .inl ⟨R, b, rfl, rfl, update_self _ _ _⟩
  · have hne : ∀ R b, t' = .barrier R → op ≠ .spawnBarrier R b :=
      fun R b ht hop => hsp ⟨R, b, ht, hop⟩
    rcases exec_spawned hexec with he | ⟨R, b, hop, he⟩ | ⟨R, hop, he⟩
    · rw [he]
      exact .inr (.inr ⟨hne, rfl⟩)
    · rw [he]
      have ht : t' ≠ .barrier R := fun ht => hne R b ht hop
      exact .inr (.inr ⟨hne, update_of_ne ht _ _⟩)
    · rw [he]
      by_cases ht : t' = .ticker R
      · subst ht
        exact .inr (.inl ⟨R, rfl, hop, update_self _ _ _⟩)
      · exact .inr (.inr ⟨hne, update_of_ne ht _ _⟩)

theorem commit_tasks_of_ne (hexec : exec env s.shared op = some o) (t' : TaskId)
    (ht : ∀ R, t' ≠ .barrier R ∧ t' ≠ .ticker R) :
    (s.commit t rest o).tasks t' = if t' = t then o.ops ++ rest else s.tasks t' := by
  rcases commit_tasks hexec t' with ⟨R, b, he, -⟩ | ⟨R, he, -⟩ | ⟨-, he⟩
  · exact absurd he (ht R).1
  · exact absurd he (ht R).2
  · exact he

theorem commit_tasks_session (hexec : exec env s.shared op = some o) (k : ℕ) :
    (s.commit t rest o).tasks (.session k) =
      if .session k = t then o.ops ++ rest else s.tasks (.session k) :=
  commit_tasks_of_ne hexec _ fun _ => ⟨nofun, nofun⟩

theorem tasks_commit {t' : TaskId} (hexec : exec env s.shared op = some o)
    (hspawn : ∀ R b, op ≠ .spawnBarrier R b) (hdone : ∀ R, op ≠ .broadcastDone R) :
    (s.commit t rest o).tasks t' = if t' = t then o.ops ++ rest else s.tasks t' := by
  rcases commit_tasks hexec t' with ⟨R, b, -, hop, -⟩ | ⟨R, -, hop, -⟩ | ⟨-, he⟩
  · exact absurd hop (hspawn R b)
  · exact absurd hop (hdone R)
  · exact he

/-! ## Programs after a step -/

variable {s' : State M} {act : Action M} {t' : TaskId} {op' : Op M}

def isFirst : Op M → Bool
  | .registerAgent .. | .reserveAgents _ | .controlRun _ | .barrierCheck .. | .tick _ => true
  | _ => false

/-- How a task comes to begin with an operation. -/
def Begins (act : Action M) (t : TaskId) : Op M → Prop
  | .registerAgent reg k => act = .connect reg ∧ t = .session k
  | .reserveAgents sub => act = .submit sub ∧ t = .submit sub.runId
  | .controlRun call => ∃ n, act = .control n call ∧ t = .control n
  | .barrierCheck R _ => t = .barrier R
  | .tick R => t = .ticker R
  | _ => False

theorem Begins.isFirst (h : Begins act t op') : isFirst op' = true := by
  cases op' <;> first | rfl | exact h.elim

theorem mem_commit (hprog : s.tasks t = op :: rest) (hexec : exec env s.shared op = some o)
    (h : op' ∈ (s.commit t rest o).tasks t') :
    (op' ∈ s.tasks t' ∧ (t' = t → op' ∈ rest)) ∨ Begins (.step t env) t' op' ∨
      t' = t ∧ op' ∈ o.ops := by
  rcases commit_tasks hexec t' with ⟨R, b, ht, -, he⟩ | ⟨R, ht, -, he⟩ | ⟨-, he⟩
  · rw [he] at h
    exact .inr (.inl (mem_singleton.1 h ▸ ht))
  · rw [he] at h
    exact .inr (.inl (mem_singleton.1 h ▸ ht))
  · rw [he] at h
    split_ifs at h with ht
    · rcases mem_append.1 h with h | h
      · exact .inr (.inr ⟨ht, h⟩)
      · exact .inl ⟨ht ▸ hprog ▸ mem_cons_of_mem _ h, fun _ => h⟩
    · exact .inl ⟨h, fun he => absurd he ht⟩

/-- A call from outside starts a task on one operation, and leaves the tables as they are. -/
structure Opens (s : State M) (act : Action M) (t : TaskId) (op : Op M) (s' : State M) : Prop where
  begins : Begins act t op
  tasks : ∀ t', s'.tasks t' = if t' = t then [op] else s.tasks t'
  trace : s'.trace = s.trace
  runs : s'.shared.runs = s.shared.runs
  agents : s'.shared.agents = s.shared.agents
  controls : s'.shared.controlCounter = s.shared.controlCounter
  downlinks : ∀ k item, item ∈ s'.shared.downlinks k ↔
    item ∈ s.shared.downlinks k ∨ t = .session k ∧ item = .msg .registered
  counter : s.shared.sessionCounter ≤ s'.shared.sessionCounter
  session : ∀ k, t = .session k → s.shared.sessionCounter < k ∧ k ≤ s'.shared.sessionCounter
  fresh : ∀ R, t = .submit R → R ∉ s.shared.runIds ∧ R ≠ ""
  runIds : ∀ R, R ∈ s'.shared.runIds ↔ R ∈ s.shared.runIds ∨ t = .submit R
  outside : ∀ R, .barrier R ≠ t ∧ .ticker R ≠ t
  idle : (∀ k, s.shared.sessionCounter < k → s.tasks (.session k) = []) →
    (∀ R, R ∉ s.shared.runIds → s.tasks (.submit R) = []) → s.tasks t = []

/-- The step runs the head of the program of `t`, and `P` holds of it and its outcome. -/
inductive Ran (s : State M) (t : TaskId) (P : Env M → Op M → Outcome M → Prop) :
    Action M → State M → Prop
  | mk {env : Env M} {op : Op M} {rest : List (Op M)} {o : Outcome M}
    (hprog : s.tasks t = op :: rest) (hexec : exec env s.shared op = some o) (h : P env op o) :
    Ran s t P (.step t env) (s.commit t rest o)

theorem step_cases (h : Step s act s') :
    (∃ t, Ran s t (fun _ _ _ => True) act s') ∨ ∃ t op, Opens s act t op s' := by
  cases h with
  | exec hprog hexec => exact .inl ⟨_, hprog, hexec, trivial⟩
  | connect reg =>
    refine .inr ⟨.session (s.shared.sessionCounter + 1), .registerAgent reg _, ⟨rfl, rfl⟩,
      fun _ => update_apply .., rfl, rfl, rfl, rfl, fun k item => ?_, Nat.le_succ _,
      fun k hk => ?_, nofun, fun _ => (or_iff_left nofun).symm, fun _ => ⟨nofun, nofun⟩,
      fun h _ => h _ (Nat.lt_succ_self _)⟩
    · rw [TaskId.session.injEq, @eq_comm _ _ k]
      exact mem_enqueue
    · cases hk
      exact ⟨Nat.lt_succ_self _, Nat.le_refl _⟩
  | submit sub hfresh hne =>
    refine .inr ⟨.submit sub.runId, .reserveAgents sub, ⟨rfl, rfl⟩,
      fun _ => update_apply .., rfl, rfl, rfl, rfl,
      fun _ _ => (or_iff_left fun h => nomatch h.1).symm, Nat.le_refl _, nofun,
      fun R hR => TaskId.submit.inj hR ▸ ⟨hfresh, hne⟩, fun R => ?_, fun _ => ⟨nofun, nofun⟩,
      fun _ h => h _ hfresh⟩
    rw [TaskId.submit.injEq, or_comm, eq_comm]
    exact mem_cons
  | control n call hidle =>
    exact .inr ⟨.control n, .controlRun call, ⟨n, rfl, rfl⟩, fun _ => update_apply ..,
      rfl, rfl, rfl, rfl, fun _ _ => (or_iff_left fun h => nomatch h.1).symm, Nat.le_refl _, nofun,
      nofun, fun _ => (or_iff_left nofun).symm, fun _ => ⟨nofun, nofun⟩, fun _ _ => hidle⟩

theorem exec_of_step (h : Step s (.step t env) s') (hprog : s.tasks t = op :: rest) :
    ∃ o, exec env s.shared op = some o ∧ s' = s.commit t rest o := by
  cases h with
  | exec hprog' hexec =>
    cases hprog'.symm.trans hprog
    exact ⟨_, hexec, rfl⟩

theorem Opens.mem (h : Opens s act t op s') (hop' : op' ∈ s'.tasks t') :
    op' ∈ s.tasks t' ∨ t' = t ∧ op' = op := by
  rw [h.tasks] at hop'
  split_ifs at hop' with ht
  · exact .inr ⟨ht, mem_singleton.1 hop'⟩
  · exact .inl hop'

theorem Opens.ahead (h : Opens s act t op s') (hidle : s.tasks t = [])
    (hop' : op' ∈ s.tasks t') : op' ∈ s'.tasks t' := by
  rw [h.tasks, if_neg]
  · exact hop'
  · rintro rfl
    rw [hidle] at hop'
    cases hop'

theorem program_of_step (hstep : Step s act s') (t' : TaskId) :
    s'.tasks t' = s.tasks t' ∨ (∃ op', Begins act t' op' ∧ s'.tasks t' = [op']) ∨
      ∃ env op rest o, s.tasks t' = op :: rest ∧ exec env s.shared op = some o ∧
        s'.tasks t' = o.ops ++ rest := by
  rcases step_cases hstep with ⟨t, hprog, hexec, -⟩ | ⟨t, op, ho⟩
  · rcases commit_tasks hexec t' with ⟨R, b, ht, -, he⟩ | ⟨R, ht, -, he⟩ | ⟨-, he⟩
    · exact .inr (.inl ⟨.barrierCheck R b, ht, he⟩)
    · exact .inr (.inl ⟨.tick R, ht, he⟩)
    · split_ifs at he with ht
      · subst ht
        exact .inr (.inr ⟨_, _, _, _, hprog, hexec, he⟩)
      · exact .inl he
  · rw [ho.tasks]
    split_ifs with ht
    · subst ht
      exact .inr (.inl ⟨op, ho.begins, rfl⟩)
    · exact .inl rfl

theorem ahead_of_step (hstep : Step s act s') (h : op' ∈ s'.tasks t') :
    op' ∈ s.tasks t' ∨ Begins act t' op' ∨
      Ran s t' (fun _ _ o => op' ∈ o.ops) act s' := by
  rcases step_cases hstep with ⟨t, hprog, hexec, -⟩ | ⟨t, op, ho⟩
  · rcases mem_commit hprog hexec h with ⟨hold, -⟩ | hbegins | ⟨rfl, hnew⟩
    · exact .inl hold
    · exact .inr (.inl hbegins)
    · exact .inr (.inr ⟨hprog, hexec, hnew⟩)
  · rcases ho.mem h with hold | ⟨rfl, rfl⟩
    · exact .inl hold
    · exact .inr (.inl ho.begins)

theorem mem_of_step (hstep : Step s act s') (h : op' ∈ s'.tasks t') :
    op' ∈ s.tasks t' ∨ isFirst op' = true ∨
      Ran s t' (fun _ _ o => op' ∈ o.ops) act s' :=
  (ahead_of_step hstep h).imp_right fun h => h.imp_left Begins.isFirst

theorem forall_tasks_step {Q : Op M → Prop} (hstep : Step s act s')
    (hfirst : ∀ op', isFirst op' = true → Q op')
    (hnew : ∀ {env op rest o}, s.tasks t' = op :: rest →
      exec env s.shared op = some o → ∀ op' ∈ o.ops, Q op')
    (h : ∀ op' ∈ s.tasks t', Q op') : ∀ op' ∈ s'.tasks t', Q op' := by
  intro op' hop'
  rcases mem_of_step hstep hop' with hold | hf | ⟨hprog, hexec, hop⟩
  · exact h op' hold
  · exact hfirst op' hf
  · exact hnew hprog hexec op' hop

theorem unopened_step (h : ∀ k, s.shared.sessionCounter < k → s.tasks (.session k) = [])
    (hstep : Step s act s') (k : ℕ) (hk : s'.shared.sessionCounter < k) :
    s'.tasks (.session k) = [] := by
  rcases step_cases hstep with ⟨t, @⟨env, op, rest, o, hprog, hexec, -⟩⟩ | ⟨t, op, ho⟩
  · replace hk : o.shared.sessionCounter < k := hk
    rw [(exec_counters hexec).1] at hk
    rw [commit_tasks_session hexec k, if_neg]
    · exact h k hk
    · rintro rfl
      cases (h k hk).symm.trans hprog
  · rw [ho.tasks, if_neg]
    · exact h k (ho.counter.trans_lt hk)
    · rintro rfl
      exact absurd (ho.session k rfl).2 (not_le.2 hk)

theorem invariant_of_step {I : State M → Prop} (hinit : ∀ liveness, I (initial M liveness))
    (hstep : ∀ {s act s'}, (machine M).Reachable s → I s → Step s act s' → I s')
    (h : (machine M).Reachable s) : I s := by
  refine h.invariant ?_ fun _ _ _ hreach h₁ hnext => hstep hreach h₁ (step_of_next hnext)
  rintro _ ⟨liveness, rfl⟩
  exact hinit liveness

theorem guarded_invariant {G : State M → Action M → Bool} {I : State M → Prop}
    (hinit : ∀ liveness, I (initial M liveness))
    (hstep : ∀ {s act s'}, ((machine M).guarded fun s act => G s act = true).Reachable s →
      G s act = true → I s → Step s act s' → I s')
    (h : ((machine M).guarded fun s act => G s act = true).Reachable s) : I s := by
  refine h.invariant ?_ fun s act s' hreach hI hnext => ?_
  · rintro _ ⟨liveness, rfl⟩
    exact hinit liveness
  · obtain ⟨hG, hnext⟩ := Machine.guarded_next.1 hnext
    exact hstep hreach hG hI (step_of_next hnext)

theorem initial_tasks (liveness : ℕ) (t : TaskId) :
    ∀ op ∈ (initial M liveness).tasks t, op = .sweep := by
  intro op hop
  simp only [initial] at hop
  split_ifs at hop
  · exact mem_singleton.1 hop
  · cases hop

end Controller

end Loadr
