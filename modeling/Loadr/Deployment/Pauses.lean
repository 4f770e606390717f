import Loadr.Agent.Pauses
import Loadr.Controller.Commands
import Loadr.Deployment.Sessions

/-!
# The reported pause state

A run reports `paused = some b` once every agent a pause command was sent to has applied it.  The
guard `Deployment.agreed` says what must not happen while the report stands or is being made.
-/

namespace Loadr

open Controller List Option

variable {M : Metering}

namespace Controller

theorem pausing_pauseAction (b : Bool) : (pauseAction b).pausing = some b := by
  cases b <;> rfl

theorem RunEffect.settled_cases {env : Env M} {op : Op M} {R a : String}
    {run run' : ControllerRun M} (h : RunEffect env R run op run')
    (ha : run'.settled a = false) :
    run.settled a = false ∨ op = .resumeLost a R ∧ a ∈ run.lost := by
  simp only [ControllerRun.settled, Bool.or_eq_false_iff, decide_eq_false_iff_not] at ha ⊢
  by_cases hmem : a ∈ run.lost
  · exact .inr ⟨by_contra fun hop => ha.2 (h.lost_mono hop hmem), hmem⟩
  · rw [Bool.eq_false_iff] at ha
    exact .inl ⟨Bool.eq_false_iff.2 (mt h.done_mono ha.1), hmem⟩

end Controller

namespace Deployment

variable {d d' : Deployment M} {act : Action M} {a R : String} {i k n callers : ℕ} {b v : Bool}
  {p p' : Agent.Process M.Bytes} {ps : List (Agent.Process M.Bytes)} {s s' : Controller.State M}
  {run run' : ControllerRun M} {pending pending' : PendingControl}

/-- Every process of agent `a` that has the run active has last applied the pause state `b`. -/
def At (ps : List (Agent.Process M.Bytes)) (R a : String) (b : Bool) : Prop :=
  ∀ p ∈ ps, p.agentId = a → ∀ v, p.applied R = some v → v = b

/-- So for every assigned agent that is neither done nor lost. -/
def Covered (ps : List (Agent.Process M.Bytes)) (run : ControllerRun M) (R : String) (b : Bool) :
    Prop :=
  ∀ a ∈ run.assigned, run.settled a = false → At ps R a b

def PauseReported (d : Deployment M) : Prop :=
  ∀ (R : String) (run : ControllerRun M) (b : Bool), d.controller.shared.runs[R]? = some run →
    run.paused = some b → Covered d.processes run R b

/-! ## The guard -/

def announces (R : String) (b : Bool) : Op M → Bool
  | .setPaused R' paused => R' == R && paused == some b
  | _ => false

/-- The pause state `b` of the run is reported, about to be, or a command for it is pending. -/
def claimed (callers : ℕ) (d : Deployment M) (R : String) (b : Bool) : Bool :=
  (d.controller.shared.runs[R]?.any fun run => run.paused == some b ||
    run.pendingControls.toList.any fun entry => entry.2.action.pausing == some b) ||
  (List.range callers).any fun n => (d.controller.tasks (.control n)).any (announces R b)

def alone (d : Deployment M) (i : ℕ) (a R : String) : Bool :=
  (List.range d.processes.length).all fun j => j == i ||
    d.processes[j]?.all fun q => q.agentId != a || (q.applied R).isNone

/-- An engine, which starts unpaused, is armed only while no pause is claimed, and by one process of
an agent. -/
def mayArm (callers : ℕ) (d : Deployment M) (i n : ℕ) : Bool :=
  d.processes[i]?.all fun p => (p.preps n).all fun prep =>
    match prep.stage with
    | .built _ => !claimed callers d prep.assignment.runId true &&
        alone d i p.agentId prep.assignment.runId
    | _ => true

/-- A process changes its pause state only while the other one is not claimed. -/
def mayTake (callers : ℕ) (d : Deployment M) (k j : ℕ) : Bool :=
  (d.process k).all fun (_, p) =>
    match (d.controller.shared.downlinks k)[j]? with
    | some (.msg (.control c)) => c.action.pausing.all fun b =>
        (p.applied c.runId).isNone || !claimed callers d c.runId !b
    | _ => true

/-- A lost agent comes back only while no pause state is claimed, and a pause command is sent to
every agent that takes part in the run. -/
def mayExec (callers : ℕ) (d : Deployment M) (t : TaskId) : Bool :=
  match d.controller.tasks t with
  | .resumeLost a R :: _ =>
    !(claimed callers d R true || claimed callers d R false) ||
      !(d.controller.shared.runs[R]?.any fun run => decide (a ∈ run.lost))
  | .controlInsert call targets :: _ => call.action.pausing.isNone ||
      d.controller.shared.runs[call.runId]?.all fun run =>
        run.assigned.all fun a => run.settled a || targets.any (·.1 == a)
  | _ => true

/-- Control calls are made by `callers` callers, and pauses do not interfere. -/
def agreed (callers : ℕ) (d : Deployment M) : Action M → Bool
  | .agent i (.prep n _ _) => mayArm callers d i n
  | .downlink k j _ => mayTake callers d k j
  | .uplink k _ _ _ => mayExec callers d (.session k)
  | .step t _ => mayExec callers d t
  | .control n _ => decide (n < callers)
  | _ => true

theorem claimed_of_paused (hr : d.controller.shared.runs[R]? = some run)
    (hb : run.paused = some b) : claimed callers d R b = true := by
  simp [claimed, hr, hb]

theorem claimed_of_pending (hr : d.controller.shared.runs[R]? = some run)
    (hp : run.pendingControls[n]? = some pending) (hb : pending.action.pausing = some b) :
    claimed callers d R b = true := by
  have hany : (run.pendingControls.toList.any fun entry => entry.2.action.pausing == some b) =
      true := by
    refine List.any_eq_true.2 ⟨(n, pending), ?_, beq_iff_eq.2 hb⟩
    exact Std.ExtTreeMap.mem_toList_iff_getElem?_eq_some.2 hp
  simp [claimed, hr, hany]

theorem claimed_of_ahead (hn : n < callers)
    (h : .setPaused R (some b) ∈ d.controller.tasks (.control n)) :
    claimed callers d R b = true := by
  have hany : ((List.range callers).any fun n =>
      (d.controller.tasks (.control n)).any (announces R b)) = true := by
    refine List.any_eq_true.2 ⟨n, mem_range.2 hn, List.any_eq_true.2 ⟨_, h, ?_⟩⟩
    simp [announces]
  rw [claimed, hany, Bool.or_true]

/-! ## What is known of a pause -/

/-- What is known while a command for the pause state `b` is pending. -/
structure Awaiting (ps : List (Agent.Process M.Bytes)) (run : ControllerRun M) (R : String) (n : ℕ)
    (pending : PendingControl) (b : Bool) : Prop where
  addressed : ∀ a ∈ run.assigned, run.settled a = false → a ∈ pending.expected
  answered : ∀ a r, pending.responses[a]? = some r → r.isOk = true → At ps R a b
  acked : ∀ p ∈ ps, ∀ ack, .controlAck ack ∈ p.sent → ack.runId = R → ack.commandId = n →
    ack.action = pending.action → ack.applied = true → At ps R p.agentId b

structure Pauses (callers : ℕ) (d : Deployment M) : Prop where
  calls : ∀ t, ∀ op ∈ d.controller.tasks t, isCall op = true → ∃ n < callers, t = .control n
  unique : ∀ (i j : ℕ) (p q : Agent.Process M.Bytes) (R : String), d.processes[i]? = some p →
    d.processes[j]? = some q → p.agentId = q.agentId → p.applied R ≠ none → q.applied R ≠ none →
    i = j
  acks : ∀ p ∈ d.processes, ∀ ack, .controlAck ack ∈ p.sent →
    ack.commandId ≤ d.controller.shared.controlCounter
  reported : PauseReported d
  ahead : ∀ t R b, .setPaused R (some b) ∈ d.controller.tasks t →
    ∀ run, d.controller.shared.runs[R]? = some run → Covered d.processes run R b
  pending : ∀ (R : String) (run : ControllerRun M) (n : ℕ) (pending : PendingControl) (b : Bool),
    d.controller.shared.runs[R]? = some run → run.pendingControls[n]? = some pending →
    pending.action.pausing = some b → Awaiting d.processes run R n pending b

theorem covered_of_unknown (hreach : (machine M).Reachable d) (hR : R ∉ d.controller.shared.runs)
    (run : ControllerRun M) : Covered d.processes run R b := by
  intro a _ _ p hp _ v hv
  refine absurd ((known_of_reachable hreach).heard p hp R ?_) hR
  unfold Agent.Process.applied at hv
  split at hv
  · rename_i R' n tx hc
    split at hv
    · rename_i hR'
      exact hR' ▸ ((wired_of_reachable hreach).lived p hp).assignmentHeard.slot _ hc
    · cases hv
  · cases hv

/-! ## A step of the controller -/

section

variable {ca : Controller.Action M} {owner' : ℕ → Option ℕ} (h : Pauses callers d)
  (hstep : Step d.controller ca s')
  (hexec : ∀ t env, ca = .step t env → mayExec callers d t = true)

include hexec in
theorem settled_of_agreed {t : TaskId} {env : Env M} {op : Op M} {rest : List (Op M)}
    (hca : ca = .step t env) (hprog : d.controller.tasks t = op :: rest)
    (hr : d.controller.shared.runs[R]? = some run) (heff : RunEffect env R run op run')
    (hb : claimed callers d R b = true) (ha : run'.settled a = false) :
    run.settled a = false := by
  rcases heff.settled_cases ha with hold | ⟨rfl, hmem⟩
  · exact hold
  · have hmay := hexec t env hca
    have hany : (claimed callers d R true || claimed callers d R false) = true := by
      cases b <;> simp [hb]
    simp [mayExec, hprog, hany, hr, hmem] at hmay

include hstep hexec in
theorem Covered.step (hlife : Life d.controller) (hr : d.controller.shared.runs[R]? = some run)
    (hr' : s'.shared.runs[R]? = some run') (hb : claimed callers d R b = true)
    (hcov : Covered d.processes run R b) : Covered d.processes run' R b := by
  obtain ⟨run₁, hr₁, he⟩ := hlife.run_of_step hstep hr
  cases hr₁.symm.trans hr'
  rcases he with rfl | ⟨t, hprog, -, heff⟩
  · exact hcov
  · intro a ha hs
    rw [heff.assigned_eq] at ha
    exact hcov a ha (settled_of_agreed hexec rfl hprog hr heff hb hs)

include h hstep in
theorem Pauses.calls_step (hcall : ∀ n call, ca = .control n call → n < callers) :
    ∀ t, ∀ op ∈ s'.tasks t, isCall op = true → ∃ n < callers, t = .control n := by
  intro t op' hop' hc
  rcases ahead_of_step hstep hop' with hold | hbegins | ⟨hprog, hexec, hnew⟩
  · exact h.calls t op' hold hc
  · cases op' with
    | controlRun call =>
      obtain ⟨n, hca, rfl⟩ := hbegins
      exact ⟨n, hcall n call hca, rfl⟩
    | registerAgent | reserveAgents | barrierCheck | tick => cases hc
    | _ => exact hbegins.elim
  · exact h.calls t _ (hprog ▸ mem_cons_self) (isCall_of_exec hexec hnew hc)

include h hstep hexec

theorem Pauses.reported_step (hlife : Life d.controller) (hreach : (machine M).Reachable d)
    (hr' : s'.shared.runs[R]? = some run') (hb : run'.paused = some b) :
    Covered d.processes run' R b := by
  rcases run_of_step hstep hr' with
    hr | ⟨t, hprog, -, ⟨run, hr, heff⟩ | ⟨sub, selected, rfl, rfl, -⟩⟩
  · exact h.reported R run' b hr hb
  · rcases heff.paused_cases with he | rfl
    · have hb₀ := he.symm.trans hb
      exact Covered.step hstep hexec hlife hr hr' (claimed_of_paused hr hb₀)
        (h.reported R run b hr hb₀)
    · rw [hb] at hprog
      have hmem : .setPaused R (some b) ∈ d.controller.tasks t := hprog ▸ mem_cons_self
      obtain ⟨n, hn, rfl⟩ := h.calls t _ hmem rfl
      exact Covered.step hstep hexec hlife hr hr' (claimed_of_ahead hn hmem)
        (h.ahead _ R b hmem run hr)
  · exact covered_of_unknown hreach (hlife.head hprog).2.2 run'

omit hstep hexec in
theorem Pauses.covered_of_answers (hcommands : Commands d.controller) {t : TaskId}
    {call : ControlCall} {rest : List (Op M)}
    (hprog : d.controller.tasks t = .controlFinish call n :: rest)
    (hr : d.controller.shared.runs[call.runId]? = some run)
    (hb : call.action.pausing = some b)
    (hok : ∀ answer ∈ answers run n, answer.2.isOk = true) :
    claimed callers d call.runId b = true ∧ Covered d.processes run call.runId b := by
  obtain ⟨run₀, pending, hr₀, hp, haction, hall⟩ := hcommands.held t _ (hprog ▸ mem_cons_self)
  cases hr₀.symm.trans hr
  rw [← haction] at hb
  have hwait := h.pending _ _ _ _ _ hr hp hb
  refine ⟨claimed_of_pending hr hp hb, fun a ha hs => ?_⟩
  have hmem := hall a (hwait.addressed a ha hs)
  have hget := Std.ExtTreeMap.getElem?_eq_some_getElem hmem
  refine hwait.answered a _ hget (hok (a, _) ?_)
  rw [answers, hp]
  exact Std.ExtTreeMap.mem_toList_iff_getElem?_eq_some.2 hget

theorem Pauses.ahead_step (hlife : Life d.controller) (hreach : (machine M).Reachable d)
    (hcommands : Commands d.controller) {t : TaskId} (hmem : .setPaused R (some b) ∈ s'.tasks t)
    (hr' : s'.shared.runs[R]? = some run') : Covered d.processes run' R b := by
  rcases ahead_of_step hstep hmem with hold | hbegins | ⟨hprog, hexec₀, hnew⟩
  · obtain ⟨n, hn, rfl⟩ := h.calls t _ hold rfl
    cases hr : d.controller.shared.runs[R]? with
    | none =>
      refine covered_of_unknown hreach (fun hR => ?_) run'
      exact nomatch hr.symm.trans (Std.ExtTreeMap.getElem?_eq_some_getElem hR)
    | some run =>
      exact Covered.step hstep hexec hlife hr hr' (claimed_of_ahead hn hold)
        (h.ahead _ R b hold run hr)
  · exact hbegins.elim
  · obtain ⟨call, n, rfl, ⟨hnone, -⟩ | ⟨rfl, hset⟩⟩ := exec_ops hexec₀ _ hnew
    · cases hnone
    · obtain ⟨haction, run, hr, hok⟩ := hset b rfl
      obtain ⟨hb, hcov⟩ := h.covered_of_answers hcommands hprog hr
        (haction ▸ pausing_pauseAction b) hok
      exact Covered.step hstep hexec hlife hr hr' hb hcov

theorem Pauses.pending_step (hlife : Life d.controller) (hvoiced : Voiced d)
    (hr' : s'.shared.runs[R]? = some run') (hp' : run'.pendingControls[n]? = some pending')
    (hb : pending'.action.pausing = some b) : Awaiting d.processes run' R n pending' b := by
  obtain ⟨run, hr, hp⟩ := pending_of_step hstep hr' hp'
  obtain ⟨run₁, hr₁, heff⟩ := hlife.run_of_step hstep hr
  obtain rfl := some.inj (hr₁.symm.trans hr')
  -- who takes part in the run is as before, as long as the pause state is claimed
  have hpart : claimed callers d R b = true → ∀ a ∈ run₁.assigned, run₁.settled a = false →
      a ∈ run.assigned ∧ run.settled a = false := by
    intro hclaimed a ha hs
    rcases heff with rfl | ⟨t, hprog, -, heff⟩
    · exact ⟨ha, hs⟩
    · exact ⟨heff.assigned_eq ▸ ha, settled_of_agreed hexec rfl hprog hr heff hclaimed hs⟩
  have hold : ∀ pending, run.pendingControls[n]? = some pending →
      pending'.action = pending.action → pending'.expected = pending.expected →
      (∀ a r, pending'.responses[a]? = some r → r.isOk = true → At d.processes R a b) →
      Awaiting d.processes run₁ R n pending' b := by
    intro pending hp haction hexpected hanswered
    rw [haction] at hb
    have hwait := h.pending R run n pending b hr hp hb
    refine ⟨fun a ha hs => ?_, hanswered, ?_⟩
    · obtain ⟨ha, hs⟩ := hpart (claimed_of_pending hr hp hb) a ha hs
      rw [hexpected]
      exact hwait.addressed a ha hs
    · rw [haction]
      exact hwait.acked
  rcases hp with hp | ⟨t, hprog, hran, ⟨pending, hp, hans⟩ | ⟨call, targets, rfl, rfl, hn, -, rfl⟩⟩
  · exact hold pending' hp rfl rfl (h.pending R run n pending' b hr hp hb).answered
  · have hwait := h.pending R run n pending b hr hp (hans.action ▸ hb)
    refine hold pending hp hans.action hans.expected fun a r hr hok => ?_
    rcases hans.new a r hr with
      hr | ⟨-, -, -, -, -, hno⟩ | ⟨rc, ack, rfl, rfl, -, hR, hn, hact, hap⟩
    · exact hwait.answered a r hr hok
    · cases hok.symm.trans hno
    · obtain ⟨i, p, hopen, hid, hsent⟩ := hvoiced t _ (hprog ▸ mem_cons_self)
      rw [← hid]
      exact hwait.acked p (mem_of_getElem? hopen.process) ack
        (hsent _ (mem_singleton_self _)) hR hn hact (hap hok)
  · have hmay := hexec t _ rfl
    have haction : call.action.pausing = some b := hb
    simp only [mayExec, hprog, haction, isNone_some, Bool.false_or, hr, all_some,
      List.all_eq_true, Bool.or_eq_true, List.any_eq_true, beq_iff_eq] at hmay
    have hpart : ∀ a ∈ run₁.assigned, run₁.settled a = false →
        a ∈ run.assigned ∧ run.settled a = false := by
      intro a ha hs
      rcases hlife.run_of_exec hprog hran hr with he | ⟨_, he, heff⟩ <;> cases he.symm.trans hr'
      · exact ⟨ha, hs⟩
      · rcases heff.settled_cases hs with hs | ⟨hop, -⟩
        · exact ⟨heff.assigned_eq ▸ ha, hs⟩
        · cases hop
    refine ⟨fun a ha hs => ?_, fun a r hr => ?_, fun p hp ack hack _ hn' => ?_⟩
    · rcases hmay a (hpart a ha hs).1 with hset | ⟨target, htarget, rfl⟩
      · cases hset.symm.trans (hpart a ha hs).2
      · exact List.mem_toFinset.2 (List.mem_map_of_mem htarget)
    · cases hr
    · have := h.acks p hp ack hack
      omega

theorem Pauses.controller (hlife : Life d.controller) (hreach : (machine M).Reachable d)
    (hvoiced : Voiced d) (hcommands : Commands d.controller)
    (hcall : ∀ n call, ca = .control n call → n < callers) :
    Pauses callers { d with controller := s', owner := owner' } where
  calls := h.calls_step hstep hcall
  unique := h.unique
  acks p hp ack hack := (h.acks p hp ack hack).trans (counter_le_of_step hstep)
  reported _ _ _ hr hb := h.reported_step hstep hexec hlife hreach hr hb
  ahead _ _ _ hmem _ hr := h.ahead_step hstep hexec hlife hreach hcommands hmem hr
  pending _ _ _ _ _ hr hp hb := h.pending_step hstep hexec hlife hvoiced hr hp hb

end

/-! ## A step of a process -/

section

variable {x : Agent.Act M.Bytes}

/-- What the guard says of a step of process `i`. -/
structure Lets (callers : ℕ) (d : Deployment M) (i : ℕ) (p : Agent.Process M.Bytes)
    (x : Agent.Act M.Bytes) : Prop where
  arm : ∀ n result room prep scalable, x = .prep n result room → p.preps n = some prep →
    prep.stage = .built scalable → claimed callers d prep.assignment.runId true = false ∧
      alone d i p.agentId prep.assignment.runId = true
  take : ∀ c room b, x = .receive (.control c) room → c.action.pausing = some b →
    p.applied c.runId ≠ none → claimed callers d c.runId (!b) = false
  number : ∀ c room, x = .receive (.control c) room →
    c.commandId ≤ d.controller.shared.controlCounter

variable (h : Pauses callers d) (hlets : Lets callers d i p x) (hp : d.processes[i]? = some p)
  (hp' : p.next x = some p')

include hlets hp'

theorem applied_of_lets (hb : claimed callers d R b = true) (hv : p'.applied R = some v) :
    p.applied R = some v ∨ v = b := by
  rcases Agent.Process.applied_next hp' hv with
    hold | ⟨hne, c, room, hx, rfl, hc⟩ | ⟨n, result, room, prep, scalable, hx, hprep, hstage, rfl, rfl⟩
  · exact .inl hold
  · refine .inr ?_
    have hno := hlets.take c room v hx hc hne
    by_contra hvb
    rw [show (!v) = b by cases v <;> cases b <;> first | rfl | exact absurd rfl hvb, hb] at hno
    cases hno
  · refine .inr ?_
    have hno := (hlets.arm n result room prep scalable hx hprep hstage).1
    cases b with
    | false => rfl
    | true => cases hno.symm.trans hb

include hp

theorem At.process (hb : claimed callers d R b = true) (hat : At d.processes R a b) :
    At (d.processes.set i p') R a b := by
  intro q hq ha v hv
  rcases mem_or_eq_of_mem_set hq with hq | rfl
  · exact hat q hq ha v hv
  · rcases applied_of_lets hlets hp' hb hv with hv | hv
    · refine hat p (mem_of_getElem? hp) ?_ v hv
      exact (congrArg Prod.fst (Agent.Process.identity_next hp')).symm.trans ha
    · exact hv

include h

theorem Pauses.unique_process (j₁ j₂ : ℕ) (q₁ q₂ : Agent.Process M.Bytes) (R : String)
    (h₁ : (d.processes.set i p')[j₁]? = some q₁) (h₂ : (d.processes.set i p')[j₂]? = some q₂)
    (hid : q₁.agentId = q₂.agentId) (ha₁ : q₁.applied R ≠ none) (ha₂ : q₂.applied R ≠ none) :
    j₁ = j₂ := by
  have hid' : p'.agentId = p.agentId := congrArg Prod.fst (Agent.Process.identity_next hp')
  obtain ⟨hlt, -⟩ := List.getElem?_eq_some_iff.1 hp
  -- the process that moves, against any other one
  have hmoved : ∀ j q, j ≠ i → d.processes[j]? = some q → p'.agentId = q.agentId →
      p'.applied R ≠ none → q.applied R ≠ none → False := by
    intro j q hj hq hid ha haq
    obtain ⟨v, hv⟩ := ne_none_iff_exists'.1 ha
    have hold : p.applied R ≠ none → False := fun ha =>
      hj (h.unique j i q p R hq hp (hid.symm.trans hid') haq ha)
    rcases Agent.Process.applied_next hp' hv with
      hv | ⟨hne, -⟩ | ⟨n, result, room, prep, scalable, hx, hprep, hstage, rfl, -⟩
    · exact hold (by rw [hv]; exact some_ne_none v)
    · exact hold hne
    · have halone := (hlets.arm n result room prep scalable hx hprep hstage).2
      have hj' := List.all_eq_true.1 halone j (mem_range.2 (List.getElem?_eq_some_iff.1 hq).1)
      rw [hq] at hj'
      simp only [beq_iff_eq, hj, all_some, Bool.or_eq_true, bne_iff_ne, ne_eq,
        isNone_iff_eq_none, haq, or_false, false_or] at hj'
      exact hj' (hid.symm.trans hid')
  by_cases hi₁ : i = j₁
  · by_cases hi₂ : i = j₂
    · exact hi₁.symm.trans hi₂
    · subst hi₁
      rw [List.getElem?_set_self hlt] at h₁
      rw [getElem?_set_ne hi₂] at h₂
      cases h₁
      exact (hmoved j₂ q₂ (Ne.symm hi₂) h₂ hid ha₁ ha₂).elim
  · rw [getElem?_set_ne hi₁] at h₁
    by_cases hi₂ : i = j₂
    · subst hi₂
      rw [List.getElem?_set_self hlt] at h₂
      cases h₂
      exact (hmoved j₁ q₁ (Ne.symm hi₁) h₁ hid.symm ha₂ ha₁).elim
    · rw [getElem?_set_ne hi₂] at h₂
      exact h.unique j₁ j₂ q₁ q₂ R h₁ h₂ hid ha₁ ha₂

theorem Pauses.acked_process (hwait : Awaiting d.processes run R n pending b)
    (hb : pending.action.pausing = some b) (hclaimed : claimed callers d R b = true)
    (ack : ControlAck) (hack : .controlAck ack ∈ p'.sent) (hR : ack.runId = R)
    (hn : ack.commandId = n) (haction : ack.action = pending.action)
    (happlied : ack.applied = true) : At (d.processes.set i p') R p'.agentId b := by
  have hid' : p'.agentId = p.agentId := congrArg Prod.fst (Agent.Process.identity_next hp')
  have hold : .controlAck ack ∈ p.sent → At (d.processes.set i p') R p'.agentId b := by
    intro hack
    refine At.process hlets hp hp' hclaimed ?_
    rw [hid']
    exact hwait.acked p (mem_of_getElem? hp) ack hack hR hn haction happlied
  rcases Agent.Process.acked_next hp' hack with hack | ⟨c, room, -, hc, -, hca, hset⟩
  · exact hold hack
  rcases hset happlied b (by rw [← hca, haction, hb]) with hack | hset
  · exact hold hack
  -- the process has just applied the command, and it is the only one of its agent
  intro q hq hid v hv
  rw [← hc, hR] at hset
  obtain ⟨j, hj⟩ := mem_iff_getElem?.1 hq
  have hself : (d.processes.set i p')[i]? = some p' :=
    List.getElem?_set_self (List.getElem?_eq_some_iff.1 hp).1
  obtain rfl := h.unique_process hlets hp hp' i j p' q R hself hj hid.symm
    (by rw [hset]; exact some_ne_none b) (by rw [hv]; exact some_ne_none v)
  cases hself.symm.trans hj
  exact some.inj (hv.symm.trans hset)

theorem Pauses.process : Pauses callers { d with processes := d.processes.set i p' } where
  calls := h.calls
  unique := h.unique_process hlets hp hp'
  acks q hq ack hack := by
    rcases mem_or_eq_of_mem_set hq with hq | rfl
    · exact h.acks q hq ack hack
    · rcases Agent.Process.acked_next hp' hack with hack | ⟨c, room, hx, -, hn, -⟩
      · exact h.acks p (mem_of_getElem? hp) ack hack
      · exact hn.trans_le (hlets.number c room hx)
  reported R run b hr hb a ha hs :=
    At.process hlets hp hp' (claimed_of_paused hr hb) (h.reported R run b hr hb a ha hs)
  ahead t R b hmem run hr a ha hs := by
    obtain ⟨n, hn, rfl⟩ := h.calls t _ hmem rfl
    exact At.process hlets hp hp' (claimed_of_ahead hn hmem) (h.ahead _ R b hmem run hr a ha hs)
  pending R run n pending b hr hpending hb := by
    have hwait := h.pending R run n pending b hr hpending hb
    have hclaimed : claimed callers d R b = true := claimed_of_pending hr hpending hb
    refine ⟨hwait.addressed, fun a r hr hok => ?_, fun q hq ack hack hR hn haction happlied => ?_⟩
    · exact At.process hlets hp hp' hclaimed (hwait.answered a r hr hok)
    · rcases mem_or_eq_of_mem_set hq with hq | rfl
      · exact At.process hlets hp hp' hclaimed
          (hwait.acked q hq ack hack hR hn haction happlied)
      · exact h.acked_process hlets hp hp' hwait hb hclaimed ack hack hR hn haction happlied

end

theorem Pauses.launch (h : Pauses callers d) {q : Agent.Process M.Bytes} (hcurrent : q.current = none)
    (hsent : q.sent = []) : Pauses callers { d with processes := d.processes ++ [q] } := by
  have hidle : ∀ R, q.applied R = none := fun R => Agent.Process.applied_of_none hcurrent
  have hat : ∀ {R a b}, At d.processes R a b → At (d.processes ++ [q]) R a b := by
    intro R a b hat p hp ha v hv
    rcases mem_append.1 hp with hp | hp
    · exact hat p hp ha v hv
    · obtain rfl := mem_singleton.1 hp
      cases (hidle R).symm.trans hv
  have hget : ∀ {j : ℕ} {p : Agent.Process M.Bytes} {R : String},
      (d.processes ++ [q])[j]? = some p → p.applied R ≠ none → d.processes[j]? = some p := by
    intro j p R hj hne
    by_cases hlt : j < d.processes.length
    · rwa [getElem?_append_left hlt] at hj
    · rw [getElem?_append_right (by omega), getElem?_singleton] at hj
      split_ifs at hj
      cases hj
      cases hne (hidle R)
  refine ⟨h.calls, fun i j p p' R hp hp' hid ha ha' => ?_, fun p hp ack hack => ?_,
    fun R run b hr hb a ha hs => hat (h.reported R run b hr hb a ha hs),
    fun t R b hmem run hr a ha hs => hat (h.ahead t R b hmem run hr a ha hs),
    fun R run n pending b hr hp hb => ?_⟩
  · exact h.unique i j p p' R (hget hp ha) (hget hp' ha') hid ha ha'
  · rcases mem_append.1 hp with hp | hp
    · exact h.acks p hp ack hack
    · rw [mem_singleton.1 hp, hsent] at hack
      cases hack
  · have hwait := h.pending R run n pending b hr hp hb
    refine ⟨hwait.addressed, fun a r hr hok => hat (hwait.answered a r hr hok), ?_⟩
    intro p hp ack hack hR hn haction happlied
    rcases mem_append.1 hp with hp | hp
    · exact hat (hwait.acked p hp ack hack hR hn haction happlied)
    · rw [mem_singleton.1 hp, hsent] at hack
      cases hack

/-! ## Runs -/

theorem lets_of_mayArm {m : ℕ} {result : Except String (List String)} {room : Bool}
    (hp : d.processes[i]? = some p) (hmay : mayArm callers d i m = true) :
    Lets callers d i p (.prep m result room) where
  arm n _ _ prep scalable hx hprep hstage := by
    obtain ⟨rfl, -, -⟩ := Agent.Act.prep.inj hx
    simpa [mayArm, hp, hprep, hstage] using hmay
  take _ _ _ hx := nomatch hx
  number _ _ hx := nomatch hx

theorem lets_of_quiet {x : Agent.Act M.Bytes} (hprep : ∀ n result room, x ≠ .prep n result room)
    (hcontrol : ∀ c room, x ≠ .receive (.control c) room) : Lets callers d i p x where
  arm n result room _ _ hx := absurd hx (hprep n result room)
  take c room _ hx := absurd hx (hcontrol c room)
  number c room hx := absurd hx (hcontrol c room)

theorem lets_of_mayTake {j : ℕ} {m : CtrlMsg} {room : Bool} (hcommands : Commands d.controller)
    (hp : d.process k = some (i, p))
    (hm : (d.controller.shared.downlinks k)[j]? = some (.msg m))
    (hmay : mayTake callers d k j = true) : Lets callers d i p (.receive m room) where
  arm _ _ _ _ _ hx := nomatch hx
  take c _ b hx hb hne := by
    obtain ⟨rfl, -⟩ := Agent.Act.receive.inj hx
    have hnone : (p.applied c.runId).isNone = false := by
      rw [isNone_eq_false_iff, isSome_iff_ne_none]
      exact hne
    simpa [mayTake, hp, hm, hb, hnone] using hmay
  number c _ hx := by
    obtain ⟨rfl, -⟩ := Agent.Act.receive.inj hx
    exact hcommands.queued k c (mem_of_getElem? hm)

theorem mayExec_of_agreed {t : TaskId} (hguard : agreed callers d act = true)
    (ht : act.task = some t) : mayExec callers d t = true := by
  cases act with
  | uplink | step =>
    cases ht
    exact hguard
  | launch | agent | connect | downlink | submit | control => cases ht

theorem Pauses.move (h : Pauses callers d) (hreach : (machine M).Reachable d)
    (hguard : agreed callers d act = true) (hmove : Move d act d') : Pauses callers d' := by
  have hcontroller := (wired_of_reachable hreach).reachable.of_guarded
  have hlife := life_of_reachable hcontroller
  have hcommands := commands_of_reachable hcontroller
  have hvoiced := voiced_of_reachable hreach
  cases hmove with
  | launch => exact h.launch rfl rfl
  | @agent i p p' x hp hp' hheard =>
    refine h.process ?_ hp hp'
    cases x with
    | receive m room =>
      obtain ⟨k, j, rfl, hk, hm⟩ := hheard
      exact lets_of_mayTake hcommands hk hm hguard
    | prep n result room =>
      obtain rfl := hheard
      exact lets_of_mayArm hp hguard
    | run | heartbeat | shutdown => exact lets_of_quiet (by simp) (by simp)
  | connect _ hs =>
    exact h.controller (step_of_next hs) (by simp) hlife hreach hvoiced hcommands (by simp)
  | controller _ htask hcall hs =>
    refine h.controller (step_of_next hs) ?_ hlife hreach hvoiced hcommands ?_
    · exact fun t env he => mayExec_of_agreed hguard (htask t env he)
    · rintro n call rfl
      obtain rfl := hcall n call rfl
      exact of_decide_eq_true hguard

theorem pauses_of_reachable
    (h : ((machine M).guarded fun d act => agreed callers d act = true).Reachable d) :
    Pauses callers d := by
  refine h.invariant ?_ fun d₁ act d₂ hreach h₁ hnext => ?_
  · rintro d₀ ⟨liveness, rfl⟩
    have hsweep : ∀ t, ∀ op ∈ (initial M liveness).controller.tasks t, op = .sweep :=
      initial_tasks liveness
    refine ⟨fun t op hop hcall => ?_, fun i j p q R hp => ?_, fun _ => nofun,
      fun R run b hr => (nomatch hr), fun t R b hmem => ?_, fun R run n pending b hr => (nomatch hr)⟩
    · rw [hsweep t op hop] at hcall
      cases hcall
    · cases hp
    · cases hsweep t _ hmem
  · obtain ⟨hguard, hnext⟩ := Machine.guarded_next.1 hnext
    exact h₁.move hreach.of_guarded hguard (move_of_next hnext)

/-- In every run in which pauses do not interfere, whenever a run reports a pause state, every
assigned agent that is neither done nor lost and has the run active is in that state. -/
theorem reported_pause_holds (M : Metering) (callers : ℕ) {d : Deployment M}
    (h : ((machine M).guarded fun d act => agreed callers d act = true).Reachable d) :
    PauseReported d :=
  (pauses_of_reachable h).reported

def pair : List (Action listing) := List.flatten
  [[.launch "a" "" ∅ "i", .launch "b" "" ∅ "j"], opens 0 1 1, opens 1 2 1, submits "r" 2,
    joins 0 1, joins 1 2, commits "r",
    [.downlink 1 3 true], .replicate 3 (.agent 0 (.run 0 .stopping true)),
    [.downlink 2 3 true], .replicate 3 (.agent 1 (.run 0 .stopping true)),
    [.uplink 1 0 2 {}], .replicate 4 (.step (.session 1) {}),
    [.uplink 2 0 2 {}], .replicate 4 (.step (.session 2) {})]

def pauseCall : ControlCall := { runId := "r", action := .pause, scenario := "", vusTotal := none }

/-- A pause command that reaches nobody, so that no state is reported, then one that reaches both
agents. -/
def pausedBoth : List (Action listing) := List.flatten
  [pair, [.control 0 pauseCall], .replicate 4 (.step (.control 0) {}),
    .replicate 2 (.step (.control 0) { room := false }), .replicate 3 (.step (.control 0) {}),
    [.control 0 pauseCall], .replicate 7 (.step (.control 0) {}),
    [.downlink 1 5 true, .uplink 1 0 3 {}], .replicate 3 (.step (.session 1) {}),
    [.downlink 2 5 true, .uplink 2 0 3 {}], .replicate 3 (.step (.session 2) {}),
    .replicate 4 (.step (.control 0) {})]

def pauseStates (d : Deployment listing) (R : String) : Option (Option Bool) × List (Option Bool) :=
  (d.controller.shared.runs[R]?.map (·.paused), d.processes.map fun p => p.applied R)

theorem reported_pause_holds_both :
    ∃ d, ((machine listing).guarded fun d act => agreed 1 d act = true).Reachable d ∧
      pauseStates d "r" = (some (some true), [some true, some true]) ∧ PauseReported d := by
  obtain ⟨d, hd, hP⟩ :=
    ((machine listing).guarded fun d act => agreed 1 d act = true).exists_reachable_of_run
      ⟨100, rfl⟩ pausedBoth
      (fun d => pauseStates d "r" = (some (some true), [some true, some true])) (by decide +kernel)
  exact ⟨d, hd, hP, reported_pause_holds listing 1 hd⟩

/-- The second agent loses its session, and the run is paused. -/
def pausedHalf : List (Action listing) := List.flatten
  [pair, .replicate 2 (.step (.session 2) {}), [.control 0 pauseCall],
    .replicate 6 (.step (.control 0) {}), [.downlink 1 5 true, .uplink 1 0 3 {}],
    .replicate 3 (.step (.session 1) {}), .replicate 4 (.step (.control 0) {})]

/-- Both agents are connected, and the first one has applied a pause. -/
def pausing : List (Action listing) := List.flatten
  [pair, [.control 0 pauseCall], .replicate 7 (.step (.control 0) {}), [.downlink 1 5 true]]

/-- An agent of the run `r` that differs from what the run reports. -/
def strays (i : ℕ) (b : Bool) (d : Deployment listing) : Prop :=
  ∃ run ∈ d.controller.shared.runs["r"]?, run.paused = some b ∧ ∃ p ∈ d.processes[i]?,
    p.agentId ∈ run.assigned ∧ run.settled p.agentId = false ∧ p.applied "r" = some !b

instance (i : ℕ) (b : Bool) : DecidablePred (strays i b) :=
  fun _ => inferInstanceAs (Decidable (∃ _ ∈ _, _))

theorem not_reported_of_strays {d : Deployment listing} (h : strays i b d) : ¬PauseReported d := by
  obtain ⟨run, hr, hpaused, p, hp, hassigned, hsettled, happlied⟩ := h
  intro hreported
  have := hreported "r" run b hr hpaused p.agentId hassigned hsettled p (mem_of_getElem? hp)
    rfl _ happlied
  cases b <;> cases this

/-- A command is over and the run reports a pause, but an agent that still takes part in it goes on
unpaused.  And a run goes on reporting the old state while its agents apply a command. -/
theorem reported_pause_wrong :
    (∃ d : Deployment listing, (machine listing).Reachable d ∧
      d.controller.tasks (.control 0) = [] ∧ ¬PauseReported d) ∧
    ∃ d : Deployment listing, (machine listing).Reachable d ∧
      d.controller.tasks (.control 0) ≠ [] ∧ ¬PauseReported d := by
  constructor
  · obtain ⟨d, hd, hidle, hstrays⟩ := (machine listing).exists_reachable_of_run ⟨100, rfl⟩
      pausedHalf (fun d => (d.controller.tasks (.control 0)).isEmpty = true ∧ strays 1 true d)
      (by decide +kernel)
    exact ⟨d, hd, isEmpty_iff.1 hidle, not_reported_of_strays hstrays⟩
  · obtain ⟨d, hd, hbusy, hstrays⟩ := (machine listing).exists_reachable_of_run ⟨100, rfl⟩
      pausing (fun d => (d.controller.tasks (.control 0)).isEmpty = false ∧ strays 0 false d)
      (by decide +kernel)
    refine ⟨d, hd, fun hnil => ?_, not_reported_of_strays hstrays⟩
    rw [hnil] at hbusy
    cases hbusy

end Deployment

end Loadr
