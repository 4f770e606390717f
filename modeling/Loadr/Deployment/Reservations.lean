import Loadr.Controller.Reservations
import Loadr.Deployment.Sessions

/-!
# Exclusive reservations

An agent that takes part in a run holds its reservation or is about to be lost by the run, so it
takes part in one run at a time (`Deployment.reservations_exclusive`).  The guard
`Deployment.succession` rules out that the followups of a registration are overtaken by another
registration of the same agent, and that a process that has been replaced comes back and claims its
run again.
-/

namespace Loadr

open Controller Controller.Barrier List Option Std.ExtTreeMap Bool

variable {M : Metering}

namespace Deployment

variable {d d' : Deployment M} {act : Action M} {a R : String} {i k : ℕ}
  {p : Agent.Process M.Bytes} {s s' : Controller.State M}

/-! ## Orderly successions -/

/-- A process replaces another one only when it registers for the first time. -/
def newcomers (d : Deployment M) (t : TaskId) : Bool :=
  match d.controller.tasks t with
  | .registerAgent reg k :: _ =>
    !(d.controller.shared.agents[reg.agentId]?.any fun e => e.incarnation != reg.incarnation) ||
      (List.range (d.controller.shared.sessionCounter + 1)).all fun j =>
        d.owner j != d.owner k || !d.controller.trace.any (isRegistration reg.agentId j)
  | _ => true

/-- An agent registers only while no other registration of it is under way, and processes that have
been replaced do not come back. -/
def succession (d : Deployment M) (act : Action M) : Bool :=
  act.task.all fun t => spaced d.controller (.step t {}) && newcomers d t

/-! ## What processes are given -/

/-- Process `i`, of this agent id and incarnation, has registered and been given its share of the
run. -/
structure Bound (d : Deployment M) (i : ℕ) (id : String × String) (R : String) : Prop where
  enrolled : ∃ k, d.owner k = some i ∧ d.controller.trace.any (isRegistration id.1 k) = true
  minted : Minted d.controller R
  tied : Tied d.controller.shared id.1 id.2 R

def Given (d : Deployment M) (k : ℕ) (R : String) : Prop :=
  ∃ i p, Opened d k i p ∧ Bound d i p.identity R

structure Leases (d : Deployment M) : Prop where
  reachable : ((Controller.machine M).guarded fun s act => spaced s act = true).Reachable
    d.controller
  entry : ∀ (a : String) (e : AgentEntry), d.controller.shared.agents[a]? = some e →
    ∃ i p, Opened d e.session i p ∧ p.identity = (a, e.incarnation) ∧
      d.controller.trace.any (isRegistration a e.session) = true
  register : ∀ k reg j, .registerAgent reg j ∈ d.controller.tasks (.session k) →
    ∃ i p, Opened d k i p ∧ p.identity = (reg.agentId, reg.incarnation) ∧
      (reg.resumeRunId ≠ "" → p.Assigned reg.resumeRunId)
  /-- Assignments that have been heard, are on a downlink, or are ahead. -/
  heard : ∀ (i : ℕ) (p : Agent.Process M.Bytes) (R : String), d.processes[i]? = some p →
    p.Assigned R → Bound d i p.identity R
  queued : ∀ k x, .msg (.assignment x) ∈ d.controller.shared.downlinks k → Given d k x.runId
  ahead : ∀ t k x, .send k (.msg (.assignment x)) ∈ d.controller.tasks t → Given d k x.runId
  selected : ∀ t sub selected, .insertRun sub selected ∈ d.controller.tasks t →
    ∀ target ∈ selected, Given d target.2 sub.runId
  /-- Readiness reports are about runs the process has been assigned. -/
  saying : ∀ t a k (msg : AgentMessage (AgentMsg M.Bytes)) R j,
    .admitMessage a k msg ∈ d.controller.tasks t → msg.msg = .assignmentReady R j →
    ∃ i p, Opened d k i p ∧ p.Assigned R
  kept : Kept d.controller
  backed : ∀ a R, Readying d.controller a R → R ∈ d.controller.shared.runs ∧ Backed d.controller a R
  unready : Unready d.controller

/-! ## A step of the controller -/

variable {t : TaskId} {j : ℕ} {e : AgentEntry}

theorem Leases.life (h : Leases d) : Life d.controller := life_of_reachable h.reachable.of_guarded

theorem Leases.sessions (h : Leases d) : Sessions d.controller :=
  sessions_of_reachable h.reachable.of_guarded

section

variable {ca : Controller.Action M} {owner' : ℕ → Option ℕ}

abbrev driven (d : Deployment M) (s' : Controller.State M) (owner' : ℕ → Option ℕ) :
    Deployment M :=
  { d with controller := s', owner := owner' }

/-- The process of the entry has registered over its session. -/
def Entered (d : Deployment M) (a : String) (e : AgentEntry) : Prop :=
  ∃ i p, Opened d e.session i p ∧ p.identity = (a, e.incarnation) ∧
    d.controller.trace.any (isRegistration a e.session) = true

/-- Session `k` registers its process, and the run to resume is one of that process. -/
def Entering (d : Deployment M) (k : ℕ) (reg : Register) : Prop :=
  ∃ i p, Opened d k i p ∧ p.identity = (reg.agentId, reg.incarnation) ∧
    (reg.resumeRunId ≠ "" → p.Assigned reg.resumeRunId)

/-- How a controller step that takes `s` to `s'` fits into a deployment. -/
structure Drives (d : Deployment M) (ca : Controller.Action M) (s' : Controller.State M)
    (owner' : ℕ → Option ℕ) : Prop where
  step : Step d.controller ca s'
  owner : ∀ k i, d.owner k = some i → owner' k = some i
  spaced : spaced d.controller ca = true
  newcomers : ∀ t env, ca = .step t env → newcomers d t = true
  connect : ∀ reg, ca = .connect reg → ∃ i p, d.processes[i]? = some p ∧ reg = p.register ∧
    owner' (d.controller.shared.sessionCounter + 1) = some i
  inbound : ∀ t env seq m, ca = .step t env → env.inbound = .message { seq := seq, msg := m } →
    ∃ k i p, t = .session k ∧ Opened d k i p ∧ m ∈ p.sent

variable (h : Leases d) (hreach : (machine M).Reachable d) (hdrive : Drives d ca s' owner')

theorem Opened.drive (hopen : Opened d k i p) (hdrive : Drives d ca s' owner') :
    Opened (d.driven s' owner') k i p :=
  ⟨hdrive.owner k i hopen.owner, hopen.process⟩

include hdrive

theorem trace_of_drive {e : Event → Bool} (he : d.controller.trace.any e = true) :
    s'.trace.any e = true := by
  cases hdrive.step with
  | exec => exact any_append ▸ or_eq_true_iff.2 (.inr he)
  | connect | submit | control => exact he

include h hreach

theorem Leases.not_back {id : String × String} (hp : d.processes[i]? = some p)
    (hid : p.identity = id) (hbound : Bound d i id R) {env : Env M} {reg : Register}
    {rest : List (Op M)} (hact : ca = .step t env)
    (hprog : d.controller.tasks t = .registerAgent reg j :: rest) (ha : reg.agentId = id.1)
    (he : d.controller.shared.agents[id.1]? = some e) (hinc : e.incarnation ≠ id.2) :
    reg.incarnation ≠ id.2 := by
  intro hreg
  have hsess := h.sessions
  obtain ⟨rfl, -⟩ := hsess.registering hprog rfl
  obtain ⟨i', p', hopen, hid', -⟩ := h.register j reg j (hprog ▸ mem_cons_self)
  obtain rfl : i' = i := by
    refine (distinct_of_reachable hreach).incarnation i' i p' p hopen.process hp ?_
    rw [hid', hid]
    exact hreg
  obtain ⟨k, hk, hregistered⟩ := hbound.enrolled
  have hnew := hdrive.newcomers _ env hact
  have hle := hsess.known _ k hregistered
  simp only [Deployment.newcomers, hprog, ha, he, any_some, or_eq_true,
    not_eq_true', bne_eq_false_iff_eq, List.all_eq_true, List.mem_range] at hnew
  rcases hnew with hsame | hall
  · exact hinc (hsame.trans hreg)
  · have := hall k (by omega)
    rw [hk, hopen.owner, hregistered] at this
    simp at this

theorem Leases.bound_drive {id : String × String} (hp : d.processes[i]? = some p)
    (hid : p.identity = id) (hbound : Bound d i id R) :
    Bound (d.driven s' owner') i id R where
  enrolled := by
    obtain ⟨k, hk, hregistered⟩ := hbound.enrolled
    exact ⟨k, hdrive.owner k i hk, trace_of_drive hdrive hregistered⟩
  minted := hbound.minted.step hdrive.step
  tied := hbound.tied.step h.reachable.of_guarded hbound.minted hdrive.step
    fun t env reg j rest e hact hprog ha he hinc =>
      h.not_back hreach hdrive hp hid hbound hact hprog ha he hinc

theorem Leases.given_drive (hgiven : Given d k R) :
    Given (d.driven s' owner') k R := by
  obtain ⟨i, p, hopen, hbound⟩ := hgiven
  exact ⟨i, p, hopen.drive hdrive, h.bound_drive hreach hdrive hopen.process rfl hbound⟩

omit hreach in
theorem Leases.entry_drive {e' : AgentEntry} (he' : s'.shared.agents[a]? = some e') :
    Entered (d.driven s' owner') a e' := by
  have hregistered : ∀ {t env reg j rest},
      ca = .step t env → d.controller.tasks t = .registerAgent reg j :: rest →
      reg.agentId = a → e' = registeredEntry env d.controller.shared reg j →
      Entered (d.driven s' owner') a e' := by
    rintro t env reg j rest rfl hprog rfl rfl
    obtain ⟨rfl, -⟩ := h.sessions.registering hprog rfl
    obtain ⟨i, p, hopen, hid, -⟩ := h.register j reg j (hprog ▸ mem_cons_self)
    refine ⟨i, p, hopen.drive hdrive, hid, ?_⟩
    have hstep := hdrive.step
    obtain ⟨_, hexec, rfl⟩ := exec_of_step hstep hprog
    cases hexec
    show (_ :: _).any _ = true
    simp [isRegistration, registeredEntry]
  cases he : d.controller.shared.agents[a]? with
  | none =>
    obtain ⟨t, env, reg, j, rest, hact, hprog, hid, hentry⟩ := entry_new_of_step hdrive.step he he'
    exact hregistered hact hprog hid hentry
  | some e =>
    have hold : e'.session = e.session → e'.incarnation = e.incarnation →
        Entered (d.driven s' owner') a e' := by
      intro hk hinc
      obtain ⟨i, p, hopen, hid, hreg⟩ := h.entry a e he
      rw [Entered, hk, hinc]
      exact ⟨i, p, hopen.drive hdrive, hid, trace_of_drive hdrive hreg⟩
    obtain ⟨e₁, he₁, heff⟩ := entry_of_step hdrive.step he
    cases he₁.symm.trans he'
    rcases heff with rfl | ⟨t, hprog, -, heff⟩
    · exact hold rfl rfl
    · cases heff with
      | same | heartbeat | disconnected | admitted | released | reserved => exact hold rfl rfl
      | registered reg j hid => exact hregistered rfl hprog hid rfl

theorem Leases.register_drive {reg : Register} (hmem : .registerAgent reg j ∈ s'.tasks (.session k)) :
    Entering (d.driven s' owner') k reg := by
  have hold : .registerAgent reg j ∈ d.controller.tasks (.session k) →
      Entering (d.driven s' owner') k reg := by
    intro hmem
    obtain ⟨i, p, hopen, hid, hresume⟩ := h.register k reg j hmem
    exact ⟨i, p, hopen.drive hdrive, hid, hresume⟩
  have hstep := hdrive.step
  cases hstep with
  | exec hprog hexec =>
    rw [commit_tasks_session hexec k] at hmem
    split_ifs at hmem with ht
    · rcases mem_append.1 hmem with hnew | hrest
      · exact (exec_ops hexec _ hnew).elim
      · exact hold (ht ▸ hprog ▸ mem_cons_of_mem _ hrest)
    · exact hold hmem
  | connect reg' =>
    have htasks : (connected d.controller reg').tasks (.session k) =
        if k = d.controller.shared.sessionCounter + 1
        then [.registerAgent reg' (d.controller.shared.sessionCounter + 1)]
        else d.controller.tasks (.session k) := by
      show Function.update d.controller.tasks _ _ (.session k) = _
      rw [Function.update_apply]
      simp only [TaskId.session.injEq]
    rw [htasks] at hmem
    split_ifs at hmem with hk
    · cases mem_singleton.1 hmem
      obtain ⟨i, p, hp, rfl, howner⟩ := hdrive.connect _ rfl
      refine ⟨i, p, ⟨hk ▸ howner, hp⟩, rfl, fun hR => ?_⟩
      exact ((wired_of_reachable hreach).lived p (mem_of_getElem? hp)).assignmentHeard.register hR
    · exact hold hmem
  | submit | control => exact hold hmem

/-! ## Assignments after a step of the controller -/

omit hreach hdrive in
theorem Leases.given_entry (he : d.controller.shared.agents[a]? = some e)
    (hminted : Minted d.controller R) (hR : e.activeRun = some R ∨ Settled d.controller.shared R) :
    Given d e.session R := by
  obtain ⟨i, p, hopen, hid, hreg⟩ := h.entry a e he
  refine ⟨i, p, hopen, ⟨e.session, hopen.owner, ?_⟩, hminted, ?_⟩
  · rw [hid]
    exact hreg
  · rw [hid]
    exact ⟨e, he, .inl ⟨rfl, hR⟩⟩

omit hreach hdrive in
theorem Leases.holds (he : d.controller.shared.agents[a]? = some e) (hp : d.processes[i]? = some p)
    (hid : p.identity = (a, e.incarnation)) (hassigned : p.Assigned R) :
    Holds d.controller.shared a R ∨ Settled d.controller.shared R := by
  obtain ⟨e', he', htied⟩ := (h.heard i p R hp hassigned).tied
  rw [hid] at he' htied
  cases he.symm.trans he'
  rcases htied with ⟨-, hR⟩ | ⟨hne, -⟩
  · exact hR.imp_left fun hR => ⟨e, he, hR⟩
  · cases hne rfl

theorem Leases.ahead_drive {x : Assignment} (hmem : .send k (.msg (.assignment x)) ∈ s'.tasks t) :
    Given (d.driven s' owner') k x.runId := by
  refine h.given_drive hreach hdrive ?_
  rcases mem_of_step hdrive.step hmem with hold | hfirst | ⟨hprog, hexec, hnew⟩
  · exact h.ahead t k x hold
  · cases hfirst
  · rcases exec_ops hexec _ hnew with ⟨a, run, rfl, hsender, hr, -⟩ |
      ⟨sub, selected, rfl, hsub, target, htarget, rfl⟩
    · obtain ⟨e, he, rfl⟩ := map_eq_some_iff.1 hsender
      have hR : x.runId ∈ d.controller.shared.runs := by
        rw [mem_iff_isSome_getElem?, hr]
        rfl
      have hreplays : replays a x.runId (.sendAssignment a x.runId : Op M) = true := by
        simp [replays]
      have hkept := h.kept t _ (hprog ▸ mem_cons_self) a x.runId hreplays
      refine h.given_entry he (h.life.minted hR) (hkept.imp_left ?_)
      rintro ⟨e', he', hrun⟩
      cases he.symm.trans he'
      exact hrun
    · rw [hsub]
      exact h.selected t sub selected (hprog ▸ mem_cons_self) target htarget

theorem Leases.queued_drive {x : Assignment}
    (hmem : .msg (.assignment x) ∈ s'.shared.downlinks k) :
    Given (d.driven s' owner') k x.runId := by
  refine h.given_drive hreach hdrive ?_
  rcases assignment_of_step hdrive.step hmem with hold | ⟨t, hold⟩
  · exact h.queued k x hold
  · exact h.ahead t k x hold

theorem Leases.selected_drive {sub : Submission M} {selected : List (String × ℕ)}
    (hmem : .insertRun sub selected ∈ s'.tasks t) {target : String × ℕ}
    (htarget : target ∈ selected) :
    Given (d.driven s' owner') target.2 sub.runId := by
  rcases mem_of_step hdrive.step hmem with hold | hfirst | ⟨hprog, hexec, hnew⟩
  · exact h.given_drive hreach hdrive (h.selected t sub selected hold target htarget)
  · cases hfirst
  · obtain ⟨rfl, agents, hsel⟩ := exec_ops hexec _ hnew
    obtain ⟨id, j⟩ := target
    rcases Agents.getElem?_reserveAgents hsel id with ⟨-, hnot⟩ | ⟨e, he, -, -, hin, he'⟩
    · cases hnot (mem_map.2 ⟨_, htarget, rfl⟩)
    · obtain rfl := (hin j).1 htarget
      obtain ⟨i, p, hopen, hid, hreg⟩ := h.entry id e he
      refine ⟨i, p, hopen.drive hdrive, ⟨e.session, hdrive.owner _ _ hopen.owner, ?_⟩,
        h.life.minted_reserve hprog hexec, ?_⟩
      · rw [hid]
        exact trace_of_drive hdrive hreg
      · rw [hid]
        refine ⟨{ e with activeRun := some sub.runId }, ?_, .inl ⟨rfl, .inl rfl⟩⟩
        simp only [exec, hsel] at hexec
        cases hexec
        exact he'

theorem Leases.saying_drive {msg : AgentMessage (AgentMsg M.Bytes)}
    (hmem : .admitMessage a k msg ∈ s'.tasks t) (hmsg : msg.msg = .assignmentReady R j) :
    ∃ i p, Opened (d.driven s' owner') k i p ∧ p.Assigned R := by
  rcases mem_of_step hdrive.step hmem with hold | hfirst | ⟨hprog, hexec, hnew⟩
  · obtain ⟨i, p, hopen, hassigned⟩ := h.saying t a k msg R j hold hmsg
    exact ⟨i, p, hopen.drive hdrive, hassigned⟩
  · cases hfirst
  · obtain ⟨rfl, hin⟩ := exec_ops hexec _ hnew
    obtain ⟨seq, m⟩ := msg
    obtain ⟨k', i, p, rfl, hopen, hsent⟩ := hdrive.inbound t _ seq m rfl hin
    have htidy := h.sessions.tidy (.session k')
    rw [hprog] at htidy
    obtain ⟨rfl, -⟩ := rest_of_head htidy
    obtain rfl : m = .assignmentReady R j := hmsg
    have hlived := (wired_of_reachable hreach).lived p (mem_of_getElem? hopen.process)
    exact ⟨i, p, hopen.drive hdrive, hlived.assignmentHeard.said R j hsent⟩

/-! ## The invariant after a step of the controller -/

omit hreach in
theorem Leases.kept_drive : Kept s' := by
  refine h.kept.step h.reachable.of_guarded hdrive.spaced hdrive.step ?_
  intro t env reg j rest hact hprog hne hrestarted
  obtain ⟨rfl, -⟩ := h.sessions.registering hprog rfl
  obtain ⟨i, p, hopen, hid, hresume⟩ := h.register j reg j (hprog ▸ mem_cons_self)
  obtain ⟨e, he, -⟩ := (h.heard i p _ hopen.process (hresume hne)).tied
  rw [hid] at he
  have hinc := same_of_not_restarted he hrestarted
  exact h.holds he hopen.process (by rw [hid, hinc]) (hresume hne)

theorem Leases.backed_drive (hready : Readying s' a R) : R ∈ s'.shared.runs ∧ Backed s' a R := by
  rcases readying_cases hdrive.step hready with hready |
    ⟨t, env, k, msg, j, rest, e, rfl, hprog, hmsg, he, rfl⟩
  · obtain ⟨hR, hbacked⟩ := h.backed a R hready
    exact ⟨mem_runs_of_step hdrive.step hR,
      hbacked.step h.reachable.of_guarded h.kept hdrive.spaced hR hdrive.step⟩
  · obtain ⟨i, p, hopen, hassigned⟩ :=
      h.saying t a _ msg R j (hprog ▸ mem_cons_self) hmsg
    obtain ⟨i', p', hopen', hid, -⟩ := h.entry a e he
    cases hopen.owner.symm.trans hopen'.owner
    cases hopen.process.symm.trans hopen'.process
    have hR := (known_of_reachable hreach).heard p (mem_of_getElem? hopen.process) R hassigned
    refine ⟨mem_runs_of_step hdrive.step hR, ?_⟩
    rcases h.holds he hopen.process hid hassigned with hholds | hset
    · exact backed_of_holds h.reachable.of_guarded hdrive.step hholds
    · exact .inl (Settled.accounted (h.life.settled_step hdrive.step hset))

theorem Leases.drive (hnext : Controller.next d.controller ca = some s') :
    Leases (d.driven s' owner') where
  reachable := h.reachable.step (Machine.guarded_next.2 ⟨hdrive.spaced, hnext⟩)
  entry _ _ := h.entry_drive hdrive
  register _ _ _ := h.register_drive hreach hdrive
  heard i p R hp hassigned := h.bound_drive hreach hdrive hp rfl (h.heard i p R hp hassigned)
  queued _ _ := h.queued_drive hreach hdrive
  ahead _ _ _ := h.ahead_drive hreach hdrive
  selected _ _ _ hmem _ := h.selected_drive hreach hdrive hmem
  saying _ _ _ _ _ _ := h.saying_drive hreach hdrive
  kept := h.kept_drive hdrive
  backed _ _ := h.backed_drive hreach hdrive
  unready := h.unready.step h.reachable.of_guarded (current_of_reachable h.reachable)
    (fun a R hready => (h.backed a R hready).1) hdrive.spaced hdrive.step

end

/-! ## A step of a process -/

theorem Given.processes {ps : List (Agent.Process M.Bytes)} (hgiven : Given d k R)
    (hopened : ∀ k i p, Opened d k i p → ∃ p', Opened { d with processes := ps } k i p' ∧
      p'.identity = p.identity ∧ ∀ R, p.Assigned R → p'.Assigned R) :
    Given { d with processes := ps } k R := by
  obtain ⟨i, p, hopen, hbound⟩ := hgiven
  obtain ⟨p', hopen', hid, -⟩ := hopened k i p hopen
  exact ⟨i, p', hopen', hid ▸ ⟨hbound.enrolled, hbound.minted, hbound.tied⟩⟩

theorem Leases.processes (h : Leases d) {ps : List (Agent.Process M.Bytes)}
    (hopened : ∀ k i p, Opened d k i p → ∃ p', Opened { d with processes := ps } k i p' ∧
      p'.identity = p.identity ∧ ∀ R, p.Assigned R → p'.Assigned R)
    (hheard : ∀ i p R, ps[i]? = some p → p.Assigned R → Bound d i p.identity R) :
    Leases { d with processes := ps } where
  reachable := h.reachable
  entry a e he := by
    obtain ⟨i, p, hopen, hid, hreg⟩ := h.entry a e he
    obtain ⟨p', hopen', hid', -⟩ := hopened _ i p hopen
    exact ⟨i, p', hopen', hid'.trans hid, hreg⟩
  register k reg j hmem := by
    obtain ⟨i, p, hopen, hid, hresume⟩ := h.register k reg j hmem
    obtain ⟨p', hopen', hid', hassigned⟩ := hopened _ i p hopen
    exact ⟨i, p', hopen', hid'.trans hid, fun hne => hassigned _ (hresume hne)⟩
  heard i p R hp hassigned := by
    have hbound := hheard i p R hp hassigned
    exact ⟨hbound.enrolled, hbound.minted, hbound.tied⟩
  queued k x hmem := (h.queued k x hmem).processes hopened
  ahead t k x hmem := (h.ahead t k x hmem).processes hopened
  selected t sub selected hmem target htarget :=
    (h.selected t sub selected hmem target htarget).processes hopened
  saying t a k msg R j hmem hmsg := by
    obtain ⟨i, p, hopen, hassigned⟩ := h.saying t a k msg R j hmem hmsg
    obtain ⟨p', hopen', -, hmono⟩ := hopened k i p hopen
    exact ⟨i, p', hopen', hmono R hassigned⟩
  kept := h.kept
  backed := h.backed
  unready := h.unready

theorem Leases.succeeds (h : Leases d) {q : Agent.Process M.Bytes} (hq : Succeeds d act i q)
    (hassigned : q.Assigned R) : Bound d i q.identity R := by
  cases hq with
  | launched =>
    obtain ⟨x, hx, -⟩ := hassigned
    cases hx
  | kept hp => exact h.heard i q R hp hassigned
  | @stepped p _ _ hp hp' hprompt =>
    rw [Agent.Process.identity_next hp']
    obtain ⟨x, hx, rfl⟩ := hassigned
    rcases hprompt.heard hp' hx with hx | ⟨k, hk, hqueued⟩
    · exact h.heard i p _ hp ⟨x, hx, rfl⟩
    · obtain ⟨i', p₁, hopen, hbound⟩ := h.queued k x hqueued
      cases hk.symm.trans hopen.owner
      cases hp.symm.trans hopen.process
      exact hbound

theorem Leases.move (h : Leases d) (hreach : (machine M).Reachable d)
    (hguard : succession d act = true) (hmove : Move d act d') : Leases d' := by
  have hd := distinct_of_reachable hreach
  have hopened : ∀ k i p, Opened d k i p → ∃ p', Opened d' k i p' ∧
      p'.identity = p.identity ∧ ∀ R, p.Assigned R → p'.Assigned R :=
    fun k i p hopen => hopen.move hd hmove
  have howner : ∀ k i, d.owner k = some i → d'.owner k = some i := fun k i => owner_of_move hd hmove
  have hheard : ∀ i q R, d'.processes[i]? = some q → q.Assigned R → Bound d i q.identity R :=
    fun i q R hq => h.succeeds (succeeds_of_move hmove hq)
  cases hmove with
  | launch | agent => exact h.processes hopened hheard
  | @connect i p s hp hs =>
    have hstep := step_of_next hs
    refine h.drive hreach ?_ hs
    refine { step := hstep, owner := howner, spaced := rfl, newcomers := fun _ _ => nofun
             connect := ?_, inbound := fun _ _ _ _ => nofun }
    rintro reg he
    cases he
    obtain ⟨-, -, hcounter⟩ | ⟨hne, -⟩ := counter_of_step hstep
    · exact ⟨i, p, hp, rfl, hcounter ▸ Function.update_self ..⟩
    · cases hne _ rfl
  | @controller ca s hcaused htask _ hs =>
    refine h.drive hreach ?_ hs
    have hguards : ∀ t env, ca = .step t env →
        spaced d.controller (.step t env) = true ∧ newcomers d t = true := by
      intro t env he
      unfold succession at hguard
      rw [htask t env he] at hguard
      exact (and_eq_true_iff.1 hguard)
    refine { step := step_of_next hs, owner := howner, spaced := ?_
             newcomers := fun t env he => (hguards t env he).2, connect := ?_, inbound := ?_ }
    · cases ca with
      | step t env => exact (hguards t env rfl).1
      | connect | submit | control => rfl
    · rintro reg rfl
      exact hcaused.elim
    · rintro t env seq m rfl hin
      rcases hcaused with hended | ⟨k, seq', i, p, m', rfl, hk, hp, hm, hin'⟩
      · cases hended.symm.trans hin
      · cases hin.symm.trans hin'
        exact ⟨k, i, p, rfl, ⟨hk, hp⟩, hm⟩

theorem leases_of_reachable
    (h : ((machine M).guarded fun d act => succession d act = true).Reachable d) : Leases d := by
  refine h.invariant ?_ ?_
  · rintro d₀ ⟨liveness, rfl⟩
    have htask : ∀ {t op}, op ∈ (Controller.initial M liveness).tasks t →
        op = .sweep := initial_tasks liveness _ _
    have hready : ∀ a R, ¬Readying (Controller.initial M liveness) a R := by
      rintro a R (⟨run, hr, -⟩ | ⟨t, op, hop, hclaim⟩)
      · cases hr
      · rw [htask hop] at hclaim
        cases hclaim
    exact
      { reachable := .init ⟨liveness, rfl⟩
        entry := fun a e he => by cases he
        register := fun k reg j hmem => by cases htask hmem
        heard := fun i p R hp => by cases hp
        queued := fun k x hmem => by cases hmem
        ahead := fun t k x hmem => by cases htask hmem
        selected := fun t sub selected hmem => by cases htask hmem
        saying := fun t a k msg R j hmem => by cases htask hmem
        kept := fun t op hop a R hr => by
          rw [htask hop] at hr
          cases hr
        backed := fun a R h => absurd h (hready a R)
        unready := fun a e R R' _ _ _ => hready a R }
  · intro d₁ act d₂ hreach h₁ hnext
    obtain ⟨hguard, hnext⟩ := Machine.guarded_next.1 hnext
    exact h₁.move hreach.of_guarded hguard (move_of_next hnext)

/-! ## Exclusiveness -/

theorem Leases.active (h : Leases d)
    (hlawful : ((Controller.machine M).guarded fun s act => lawful s act = true).Reachable
      d.controller) (ha : Active d.controller.shared a R) :
    Readying d.controller a R ∧ ∃ e, d.controller.shared.agents[a]? = some e ∧
      (e.activeRun = some R ∨
        ∃ op ∈ d.controller.tasks (.session e.session), restarts a R op = true) := by
  obtain ⟨hready, hacc⟩ := ha.readying hlawful
  exact ⟨hready, (h.backed a R hready).2.resolve_left hacc⟩

/-- In every run of a deployment whose registrations succeed each other in order, an agent is an
active participant of at most one run under way.  And whatever the state, the release of a run's
reservations leaves the reservations of other runs alone. -/
theorem reservations_exclusive (M : Metering) {d : Deployment M}
    (h : ((machine M).guarded fun d act => succession d act = true).Reachable d) :
    (∀ a R R', Active d.controller.shared a R → Active d.controller.shared a R' → R = R') ∧
      ∀ (env : Env M) (inner : Inner M) (R : String) (o : Outcome M),
        exec env inner (.releaseReservations R) = some o →
        ∀ (a : String) (e : AgentEntry) (R' : String), inner.agents[a]? = some e →
          e.activeRun = some R' → R' ≠ R → o.shared.agents[a]? = some e := by
  refine ⟨fun a R R' ha ha' => ?_, fun env inner R o hexec a e R' => release_keeps_others hexec⟩
  have hleases := leases_of_reachable h
  have hlawful := (wired_of_reachable h.of_guarded).reachable
  obtain ⟨hready, e, he, hback⟩ := hleases.active hlawful ha
  obtain ⟨hready', e', he', hback'⟩ := hleases.active hlawful ha'
  cases he.symm.trans he'
  rcases hback with hrun | hrestart
  · rcases hback' with hrun' | hrestart'
    · exact some.inj (hrun.symm.trans hrun')
    · exact absurd hready (hleases.unready a e R R' he hrestart' hrun)
  · rcases hback' with hrun' | hrestart'
    · exact absurd hready' (hleases.unready a e R' R he hrestart hrun')
    · obtain ⟨op, hop, hres⟩ := hrestart
      obtain ⟨op', hop', hres'⟩ := hrestart'
      exact restarts_unique hlawful.of_guarded hop hop' hres hres'

/-- A process takes part in `r`, is replaced, and the second process takes part in `q` when `r` has
lost the agent. -/
def replaced : List (Action listing) := List.flatten
  [[.launch "a" "" ∅ "i", .launch "b" "" ∅ "j", .launch "c" "" ∅ "k", .launch "a" "" ∅ "x"],
    opens 0 1 1, opens 1 2 1, submits "r" 2, joins 0 1, joins 1 2, commits "r",
    opens 2 3 1, opens 3 4 9, submits "q" 2, joins 2 3, joins 3 4, commits "q"]

theorem reservations_exclusive_replaced :
    ∃ d, ((machine listing).guarded fun d act => succession d act = true).Reachable d ∧
      Active d.controller.shared "a" "q" ∧ ¬Active d.controller.shared "a" "r" ∧
      ∀ R, Active d.controller.shared "a" R → R = "q" := by
  obtain ⟨d, hd, hq, hr⟩ := Machine.exists_reachable_of_run
    ((machine listing).guarded fun d act => succession d act = true) ⟨3, rfl⟩ replaced
    (fun d => Active d.controller.shared "a" "q" ∧ ¬Active d.controller.shared "a" "r")
    (by decide +kernel)
  exact ⟨d, hd, hq, hr, fun R hR => (reservations_exclusive listing hd).1 "a" R "q" hR hq⟩

/-- The second process loses its session while the handler has yet to tell `r`, opens another one
over which it is assigned `q`, and gets ready. -/
def overtaken : List (Action listing) := List.flatten
  [[.launch "a" "" ∅ "i", .launch "a" "" ∅ "x"], opens 0 1 1, submits "r" 1, joins 0 1, commits "r",
    opens 1 2 1, submits "q" 1, opens 1 3 7, joins 1 3, commits "q"]

/-- After `replaced`, the first process comes back twice, and so does the second one. -/
def cameBack : List (Action listing) := List.flatten
  [replaced, opens 0 5 9, opens 0 6 9, opens 3 7 2, opens 3 8 9]

/-- Agents take part in two runs under way: the followups of a registration are overtaken, or
processes with the same agent id take turns. -/
theorem reservations_shared :
    (∃ d : Deployment listing, (machine listing).Reachable d ∧
      Active d.controller.shared "a" "r" ∧ Active d.controller.shared "a" "q") ∧
    ∃ d : Deployment listing, (machine listing).Reachable d ∧
      (∀ k ∈ List.range 9, registering "a" (d.controller.tasks (.session k)) = false) ∧
      Active d.controller.shared "a" "r" ∧ Active d.controller.shared "a" "q" :=
  ⟨(machine listing).exists_reachable_of_run ⟨3, rfl⟩ overtaken _ (by decide +kernel),
    (machine listing).exists_reachable_of_run ⟨3, rfl⟩ cameBack _ (by decide +kernel)⟩

end Deployment

end Loadr
